import Paging.AddressSpace.Action
import Paging.Hardware.Mmu
import Paging.MemoryMap.Mapping
import Paging.Session.Script

/-!
# Sessions

A session is an address space over a span of memory, driven by commands. Each command yields a
reply and a report of everything else that can be seen of it: which entries changed, which
cached mappings were dropped, which words the frame source offered and what was logged.
-/

namespace Paging

/-! ## Hardware -/

/-- The hardware of a session. -/
inductive Board where
  | cpu (cpu : Hardware.Cpu)
  | simulated (simulated : Hardware.Simulated)
  | fixed (fixed : Hardware.Fixed)

namespace Board

/-- The content of the root register, if anything was loaded. -/
def register? : Board → Option Word
  | cpu c => some c.cr3.bits
  | simulated s => s.loaded.map (·.word)
  | fixed f => f.loaded.map (·.word)

instance : Mmu Board where
  windowTable
    | cpu c => Mmu.windowTable c
    | simulated s => Mmu.windowTable s
    | fixed f => Mmu.windowTable f
  loadRoot
    | cpu c, root => (Mmu.loadRoot c root).map cpu
    | simulated s, root => (Mmu.loadRoot s root).map simulated
    | fixed f, root => (Mmu.loadRoot f root).map fixed

end Board

/-! ## Sessions -/

/-- An address space over a span of memory. -/
structure Session where
  span : Span
  space : AddressSpace Board Supply

namespace Session

/-! ## Setting up -/

/-- Which hardware a session runs on, and the initial content of its register. -/
inductive Setup where
  | cpu (cr3 : Word)
  | simulated (loaded : Option Word)
  | fixed (loaded : Option Word) (accepts : Bool)

/-- The hardware of a session whose root is `root`. -/
def Setup.board (setup : Setup) (span : Span) (root : Frame) : Board :=
  match setup with
  | .cpu cr3 => .cpu ⟨⟨cr3⟩, span.contains⟩
  | .simulated loaded => .simulated ⟨loaded.map Address.mk, span.contains⟩
  | .fixed loaded accepts => .fixed ⟨loaded.map Address.mk, root, accepts⟩

/-- What a session starts from. -/
structure Config where
  base : Word
  /-- An address in the frame of the root. -/
  root : Word
  access : Access
  hardware : Setup
  limit : Option Nat
  words : Option (List Word)
  leftovers : Bool
  screened : Bool

/-- The session at its start, with all memory zero. -/
def start (c : Config) : Session :=
  let span := Span.ofBase c.base
  let root := Page.containing ⟨c.root⟩
  let script : Script :=
    { span, limit := c.limit, offered := 0, words := c.words, next := 1, leftovers := c.leftovers,
      drawn := [] }
  ⟨span, .create root c.access (c.hardware.board span root) ⟨script, c.screened⟩ .zero⟩

/-! ## Commands and replies -/

/-- What a session can be told to do. -/
inductive Command where
  | act (action : Action)
  | translate (vas : List VirtAddr)
  | mapRange (va : VirtAddr) (pa : PhysAddr) (pages : Word) (flags : PageFlags)
  | identityMapRange (pa : PhysAddr) (pages : Word) (flags : PageFlags)
  | mapRegions (regions : List Region) (flags : PageFlags)
  | poke (frame : Nat) (slot : Index) (value : Word)
  | showTable (frame : Nat)
  | setLimit (limit : Option Nat)
  | extendScript (words : List Word)
  | showState

/-- The state of an address space as it can be seen from outside. -/
structure Status where
  root : Frame
  phase : Phase
  access : Access
  register? : Option Word

/-- The answer to a command. -/
inductive Reply where
  | outcome (outcome : Outcome)
  | outcomes (outcomes : List Outcome)
  | tally (tally : Tally)
  | table (table : Table)
  | status (status : Status)

/-- The state of the address space. -/
def status (s : Session) : Status :=
  ⟨s.space.root, s.space.phase, s.space.access, s.space.machine.mmu.register?⟩

/-! ## Carrying out a command -/

/-- Carries out an action on the address space. -/
def act (s : Session) (a : Action) : Reply × Session :=
  let (outcome, space) := s.space.perform a
  (.outcome outcome, { s with space })

/-- Runs an operation that maps a range of pages. -/
def runMapping (s : Session) (x : Op (AddressSpace Board Supply) RegionError Tally) :
    Reply × Session :=
  let (result, space) := x.run s.space
  let reply := match result with
    | .ok tally => .tally tally
    | .error stop => .outcome (.refused (stop.refusal .region))
  (reply, { s with space })

/-- The session with its machine changed. -/
def onMachine (s : Session) (f : Machine Board Supply → Machine Board Supply) : Session :=
  { s with space := { s.space with machine := f s.space.machine } }

/-- The session with its script changed. -/
def onScript (s : Session) (f : Script → Script) : Session :=
  s.onMachine fun m => { m with frames := { m.frames with script := f m.frames.script } }

/-- The answer to a command, and the session after it. -/
def perform (s : Session) : Command → Reply × Session
  | .act a => s.act a
  | .translate vas => (.outcomes (vas.map s.space.lookUp), s)
  | .mapRange va pa pages flags => s.runMapping (MemoryMap.mapRange va pa pages flags)
  | .identityMapRange pa pages flags => s.runMapping (MemoryMap.identityMapRange pa pages flags)
  | .mapRegions regions flags => s.runMapping (MemoryMap.mapRegions regions flags)
  | .poke frame slot value =>
    (.outcome .done, s.onMachine (·.write (s.span.frame frame) slot ⟨value⟩))
  | .showTable frame => (.table (s.space.machine.memory.table (s.span.frame frame)), s)
  | .setLimit limit => (.outcome .done, s.onScript fun t => { t with limit })
  | .extendScript words => (.outcome .done, s.onScript (·.extend words))
  | .showState => (.status s.status, s)

/-! ## Reports -/

/-- What can be seen of a command. -/
structure Report where
  reply : Reply
  /-- The entries that changed: frame, slot and new entry. -/
  changes : List (Nat × Nat × Entry)
  invalidations : List VirtAddr
  /-- The words that the frame source offered. -/
  offers : List Word
  records : List Record

/-- The session with nothing in its traces. -/
def forget (s : Session) : Session :=
  (s.onMachine fun m => { m with trace := [] }).onScript fun t => { t with drawn := [] }

/-- Carries out a command and reports on it. -/
def step (s : Session) (c : Command) : Report × Session :=
  let (reply, after) := s.forget.perform c
  let machine := after.space.machine
  let report : Report :=
    { reply
      changes := s.span.changes machine.touched s.space.machine.memory machine.memory
      invalidations := machine.invalidations
      offers := machine.frames.script.drawn.reverse
      records := machine.records }
  (report, after)

/-- Carries out a list of commands and reports on each. -/
def steps (s : Session) : List Command → List Report × Session
  | [] => ([], s)
  | c :: rest =>
    let (report, s') := s.step c
    let (reports, s'') := s'.steps rest
    (report :: reports, s'')

end Session

/-! ## Text -/

/-- The way to the tables. -/
def Access.inspect : Access → String
  | identity => "Disabled(IdentityAccess \x7b _private: () \x7d)"
  | window => "Enabled"

/-- The name of a phase. -/
def Phase.name : Phase → String
  | building => "Building"
  | active => "Active"

end Paging

import Paging.AddressSpace.Basic

/-!
# Actions on an address space

The life of an address space is a list of actions. `perform` carries one out and says what came
of it, and `performAll` carries out a list. An action that is refused, or that faults, leaves
behind the address space as it was at that point.
-/

namespace Paging

/-- Something that can be done with an address space. -/
inductive Action where
  | map (va : VirtAddr) (pa : PhysAddr) (flags : PageFlags) (force : Bool)
  | identityMap (pa : PhysAddr) (flags : PageFlags) (force : Bool)
  | unmap (va : VirtAddr)
  | translate (va : VirtAddr)
  | activate
  | setAccess (access : Access)
deriving DecidableEq

/-- Why an action did not succeed. -/
inductive Refusal where
  | map (cause : MapError)
  | activate (cause : ActivateError)
  | region (cause : RegionError)
  | fault (cause : Fault)
  | violation (cause : Violation)
deriving DecidableEq

/-- The refusal that a stop amounts to, if its error amounts to `error`. -/
def Stop.refusal {ε : Type} (error : ε → Refusal) : Stop ε → Refusal
  | .error e => error e
  | .fault c => .fault c
  | .violation v => .violation v

/-- What became of an action. -/
inductive Outcome where
  | done
  | address (pa : PhysAddr)
  | refused (cause : Refusal)
deriving DecidableEq

/-- What became of an operation whose errors are refusals and whose result is an outcome. -/
def Outcome.ofResult {ε β : Type} (error : ε → Refusal) (result : β → Outcome) :
    Except (Stop ε) β → Outcome
  | .ok b => result b
  | .error stop => .refused (stop.refusal error)

@[simp] theorem Outcome.ofResult_ok {ε β : Type} (error : ε → Refusal) (result : β → Outcome)
    (b : β) : ofResult error result (.ok b) = result b := rfl

@[simp] theorem Outcome.ofResult_error {ε β : Type} (error : ε → Refusal) (result : β → Outcome)
    (stop : Stop ε) : ofResult error result (.error stop) = .refused (stop.refusal error) := rfl

namespace AddressSpace

variable {η α ε β : Type}

/-- Runs an operation and says what became of it. -/
def conclude (error : ε → Refusal) (result : β → Outcome) (x : Op (AddressSpace η α) ε β)
    (s : AddressSpace η α) : Outcome × AddressSpace η α :=
  let (r, s') := x.run s
  (.ofResult error result r, s')

/-- What becomes of translating an address. -/
def lookUp [Mmu η] (s : AddressSpace η α) (va : VirtAddr) : Outcome :=
  .ofResult Empty.elim .address (s.translate va)

/-- Carries out an action. -/
def perform [Mmu η] [FrameSource α] (s : AddressSpace η α) :
    Action → Outcome × AddressSpace η α
  | .map va pa flags force => conclude .map (fun _ => .done) (map va pa flags force) s
  | .identityMap pa flags force => conclude .map (fun _ => .done) (identityMap pa flags force) s
  | .unmap va => conclude .map .address (unmap va) s
  | .translate va => (s.lookUp va, s)
  | .activate => conclude .activate (fun _ => .done) activate s
  | .setAccess access => (.done, s.setAccess access)

/-- Carries out a list of actions, one after the other. -/
def performAll [Mmu η] [FrameSource α] (s : AddressSpace η α) :
    List Action → List Outcome × AddressSpace η α
  | [] => ([], s)
  | a :: rest =>
    let (outcome, s') := s.perform a
    let (outcomes, s'') := s'.performAll rest
    (outcome :: outcomes, s'')

end AddressSpace

end Paging

import Paging.Flags.Page

/-!
# Entry flags

The flag bits of a table entry. Execution is allowed unless forbidden, so page flags that lack
the permission to execute turn into an entry flag that is set.
-/

namespace Paging

/-- The names of the entry flags. -/
def entryVocabulary : Vocabulary 64 where
  title := "ArchFlags"
  names :=
    [("PRESENT", 0), ("WRITABLE", 1), ("USER", 2), ("WRITE_THROUGH", 3), ("CACHE_DISABLE", 4),
      ("ACCESSED", 5), ("DIRTY", 6), ("HUGE_PAGE", 7), ("GLOBAL", 8), ("NO_EXECUTE", 63)]

/-- The flag bits of an entry. -/
abbrev EntryFlags := Flags entryVocabulary

namespace EntryFlags

/-- The entry is valid. -/
def present : EntryFlags := .single 0

/-- Writes are allowed. -/
def writable : EntryFlags := .single 1

/-- User mode may access memory through the entry. -/
def user : EntryFlags := .single 2

/-- The entry maps a huge page. -/
def huge : EntryFlags := .single 7

/-- Instruction fetches are forbidden. -/
def noExecute : EntryFlags := .single 63

/-- The flags of a link to a lower table. They allow everything, so that the leaf decides. -/
def link : EntryFlags := (present.union writable).union user

/-- The flags of the root's link to itself: tables are never executed and never seen from user
mode. -/
def selfLink : EntryFlags := (present.union writable).union noExecute

/-- The entry flags of a leaf mapped with the given page flags. -/
def ofPageFlags (flags : PageFlags) : EntryFlags :=
  let pick (c : Bool) (f : EntryFlags) : EntryFlags := if c then f else .empty
  ((((pick (flags.contains PageFlags.present) present).union
    (pick (flags.contains PageFlags.user) user)).union
    (pick (flags.contains PageFlags.write) writable)).union
    (pick (flags.contains PageFlags.huge) huge)).union
    (pick (!flags.contains PageFlags.execute) noExecute)

end EntryFlags

end Paging

import Paging.Flags.Basic

/-!
# Page flags

What a mapping allows, independent of how an entry spells it. Reading has no bit of its own in
an entry, and a mapping marked huge is still installed as a 4 KiB leaf.
-/

namespace Paging

/-- The names of the page flags. -/
def pageVocabulary : Vocabulary 16 where
  title := "PageFlags"
  names :=
    [("PRESENT", 0), ("USER_MODE_ACCESSIBLE", 1), ("EXECUTE", 2), ("WRITE", 3), ("READ", 4),
      ("HUGE_PAGE", 15)]

/-- Permissions and shape of one mapping. -/
abbrev PageFlags := Flags pageVocabulary

namespace PageFlags

/-- The mapping is valid. -/
def present : PageFlags := .single 0

/-- User mode may access the page. -/
def user : PageFlags := .single 1

/-- Instructions may be fetched from the page. -/
def execute : PageFlags := .single 2

/-- The page is writable. -/
def write : PageFlags := .single 3

/-- The page is readable. -/
def read : PageFlags := .single 4

/-- The mapping is meant as a huge page. -/
def huge : PageFlags := .single 15

/-- Kernel data: readable and writable, not executable. -/
def kernelData : PageFlags := (present.union read).union write

/-- Kernel code: readable and executable, not writable. -/
def kernelCode : PageFlags := (present.union read).union execute

/-- Boot memory before the hand-off: everything is allowed. -/
def bootIdentity : PageFlags := (((present.union read).union write).union execute).union user

end PageFlags

end Paging

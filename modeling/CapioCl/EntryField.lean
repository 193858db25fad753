import CapioCl.Engine

/-!
# The fields of an entry

The twelve fields of `CapioCLEntry` by name (`engine.h:17-43`): the type of each, its projection and
the key under which `toJson` writes it. Statements about "each of the twelve fields" are about all
`EntryField`.
-/

namespace CapioCl

inductive EntryField where
  | producers
  | consumers
  | fileDependencies
  | commitRule
  | fireRule
  | directoryChildrenCount
  | commitOnCloseCount
  | enableDirectoryCountUpdate
  | storeInMemory
  | permanent
  | excluded
  | isFile
  deriving Repr, DecidableEq

namespace EntryField

/-- The type of a field. -/
def Value : EntryField → Type
  | .producers | .consumers | .fileDependencies => List String
  | .commitRule | .fireRule => String
  | .directoryChildrenCount | .commitOnCloseCount => Int
  | .enableDirectoryCountUpdate | .storeInMemory | .permanent | .excluded | .isFile => Bool

/-- The field of an entry. -/
def get : (field : EntryField) → CapioCLEntry → field.Value
  | .producers => CapioCLEntry.producers
  | .consumers => CapioCLEntry.consumers
  | .fileDependencies => CapioCLEntry.fileDependencies
  | .commitRule => CapioCLEntry.commitRule
  | .fireRule => CapioCLEntry.fireRule
  | .directoryChildrenCount => CapioCLEntry.directoryChildrenCount
  | .commitOnCloseCount => CapioCLEntry.commitOnCloseCount
  | .enableDirectoryCountUpdate => CapioCLEntry.enableDirectoryCountUpdate
  | .storeInMemory => CapioCLEntry.storeInMemory
  | .permanent => CapioCLEntry.permanent
  | .excluded => CapioCLEntry.excluded
  | .isFile => CapioCLEntry.isFile

/-- Its key in JSON. -/
def key : EntryField → String
  | .producers => "producers"
  | .consumers => "consumers"
  | .fileDependencies => "file_dependencies"
  | .commitRule => "commit_rule"
  | .fireRule => "fire_rule"
  | .directoryChildrenCount => "directory_children_count"
  | .commitOnCloseCount => "commit_on_close_count"
  | .enableDirectoryCountUpdate => "enable_directory_count_update"
  | .storeInMemory => "store_in_memory"
  | .permanent => "permanent"
  | .excluded => "excluded"
  | .isFile => "is_file"

/-- The entry with the given fields. -/
def entryOf (value : (field : EntryField) → field.Value) : CapioCLEntry where
  producers := value .producers
  consumers := value .consumers
  fileDependencies := value .fileDependencies
  commitRule := value .commitRule
  fireRule := value .fireRule
  directoryChildrenCount := value .directoryChildrenCount
  commitOnCloseCount := value .commitOnCloseCount
  enableDirectoryCountUpdate := value .enableDirectoryCountUpdate
  storeInMemory := value .storeInMemory
  permanent := value .permanent
  excluded := value .excluded
  isFile := value .isFile

@[simp] theorem get_entryOf (value : (field : EntryField) → field.Value) (field : EntryField) :
    field.get (entryOf value) = value field := by
  cases field <;> rfl

end EntryField

end CapioCl

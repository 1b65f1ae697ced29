import Muaddib.Channels
import Muaddib.MemoryRegions
import Muaddib.Schedulers

/-! # How values are shown

The texts of `{:?}` and `{}` for the types whose values appear in messages and logs. -/
namespace Muaddib

/-- `std::fmt::Debug`. -/
class Debug (α : Type) where
  debug : α → String

export Debug (debug)

/-- `std::fmt::Display`. -/
class Display (α : Type) where
  display : α → String

export Display (display)

/-- What `derive(Debug)` writes for a tuple variant. -/
def debugTuple (name : String) (fields : List String) : String :=
  name ++ "(" ++ ", ".intercalate fields ++ ")"

/-- What `derive(Debug)` writes for named fields. -/
def debugStruct (name : String) (fields : List (String × String)) : String :=
  name ++ " \x7b " ++ ", ".intercalate (fields.map fun x => x.1 ++ ": " ++ x.2) ++ " \x7d"

section Primitives

instance : Debug ℕ := ⟨toString⟩

instance : Debug UInt8 := ⟨fun n => toString n.toNat⟩

instance : Debug UInt32 := ⟨fun n => toString n.toNat⟩

instance : Debug UInt64 := ⟨fun n => toString n.toNat⟩

instance : Debug Bool := ⟨toString⟩

instance : Debug Unit := ⟨fun _ => "()"⟩

instance {α : Type} [Debug α] : Debug (List α) :=
  ⟨fun l => "[" ++ ", ".intercalate (l.map debug) ++ "]"⟩

instance {α β : Type} [Debug α] [Debug β] : Debug (α × β) :=
  ⟨fun x => debugTuple "" [debug x.1, debug x.2]⟩

instance {ε α : Type} [Debug ε] [Debug α] : Debug (Except ε α) where
  debug
    | .ok a => debugTuple "Ok" [debug a]
    | .error e => debugTuple "Err" [debug e]

end Primitives

instance : Debug ObjectId := ⟨fun o => debugTuple "ObjectId" [debug o.val]⟩

instance : Debug Rights := ⟨fun r => debugTuple "Rights" [debug r.bits]⟩

instance : Debug ProcessId := ⟨fun p => debugTuple "ProcessId" [debug p.val]⟩

instance : Debug Handle := ⟨fun h => debugTuple "Handle" [debug h.val]⟩

instance : Debug Capability := ⟨fun c => debugStruct "Capability"
  [("object", debug c.object), ("rights", debug c.rights), ("epoch", debug c.epoch)]⟩

instance : Debug CapError where
  debug
    | .unknownObject object => debugTuple "UnknownObject" [debug object]
    | .revoked object => debugTuple "Revoked" [debug object]
    | .insufficientRights object held required => debugStruct "InsufficientRights"
      [("object", debug object), ("held", debug held), ("required", debug required)]
    | .cannotAmplify object held requested => debugStruct "CannotAmplify"
      [("object", debug object), ("held", debug held), ("requested", debug requested)]

instance : Debug GrantError where
  debug
    | .unknownHandle => "UnknownHandle"
    | .duplicateTransfer handle => debugTuple "DuplicateTransfer" [debug handle]
    | .moveConflict object => debugTuple "MoveConflict" [debug object]
    | .capability error => debugTuple "Capability" [debug error]

instance : Debug MemoryError where
  debug
    | .unknownRegion object => debugTuple "UnknownRegion" [debug object]
    | .outOfBounds object offset len size => debugStruct "OutOfBounds"
      [("object", debug object), ("offset", debug offset), ("len", debug len), ("size", debug size)]
    | .capability error => debugTuple "Capability" [debug error]

instance : Debug ProcessError where
  debug
    | .unknownProcess id => debugTuple "UnknownProcess" [debug id]
    | .grant error => debugTuple "Grant" [debug error]

instance : Debug IpcError where
  debug
    | .unknownChannel object => debugTuple "UnknownChannel" [debug object]
    | .capability error => debugTuple "Capability" [debug error]
    | .grant error => debugTuple "Grant" [debug error]

/-- The names of the rights held, or `NONE`. -/
instance : Display Rights where
  display r :=
    let names := [(Rights.READ, "READ"), (.WRITE, "WRITE"), (.EXECUTE, "EXECUTE"), (.GRANT, "GRANT"),
      (.DESTROY, "DESTROY")]
    let held := (names.filter fun x => r.contains x.1).map Prod.snd
    if held.isEmpty then "NONE" else "|".intercalate held

instance : Display CapError where
  display
    | .unknownObject object =>
      "object " ++ debug object ++ " does not exist (destroyed, or never allocated by this kernel)"
    | .revoked object =>
      "capability for " ++ debug object ++ " was revoked (issued for an earlier epoch)"
    | .insufficientRights object held required => "capability for " ++ debug object ++
      " lacks required rights: has " ++ display held ++ ", needs " ++ display required
    | .cannotAmplify object held requested => "cannot derive a capability for " ++ debug object ++
      " with rights " ++ display requested ++ " from one that only holds " ++ display held ++
      " — derivation can only attenuate, never amplify"

instance : Display GrantError where
  display
    | .unknownHandle => "handle does not exist in the source process's capability table"
    | .duplicateTransfer handle =>
      "handle " ++ debug handle ++ " is transferred more than once in the same batch"
    | .moveConflict object => "object " ++ debug object ++ " is moved in this batch but also named " ++
      "by another grant, whose capability the move would revoke on arrival"
    | .capability error => display error

instance : Display IpcError where
  display
    | .unknownChannel object =>
      "object " ++ debug object ++ " is not a channel this registry created (or it was destroyed)"
    | .capability error => display error
    | .grant error => display error

example : debug (.ok [1, 2] : Except MemoryError Bytes) = "Ok([1, 2])" := by decide +kernel

end Muaddib

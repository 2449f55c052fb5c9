import Crossing.Registry

/-!
# Parcels

What crosses between the two runtimes. A parcel holds data as text, the number
under which the host keeps an object, or the key of a wrapped script object.
-/

namespace Crossing

/-- The number under which the host keeps an object for the script side. -/
structure ObjectId where
  val : Nat
deriving DecidableEq, Repr

def ObjectId.text (id : ObjectId) : String := "host:" ++ natText id.val

/-- One argument or result on its way across. -/
inductive Parcel where
  /-- The text of a datum. -/
  | data (text : String)
  /-- An object that the host keeps. -/
  | reference (id : ObjectId)
  /-- A script object that was wrapped for the host. -/
  | wrapped (key : Key)
deriving DecidableEq, Repr

/-- The object that the parcel refers to, if it is a reference. -/
def Parcel.reference? : Parcel → Option ObjectId
  | .reference id => some id
  | _ => none

end Crossing

import ThanksComputer.Json.Edit

/-! `mergeJSONSlow` of merge.go: one text edit per member of the output. -/

universe u

namespace ThanksComputer

variable {F : Type u}

inductive MergeError
  | notObjects
  | deepMergeObj
  deriving DecidableEq, Repr

def MergeError.message : MergeError → String
  | .notObjects => "Merging requires both sides to be objects"
  | .deepMergeObj => "deepmerge obj error"

namespace Merge

variable (L : JsonLib F)

/-- What one member of the output does to the envelope text; `none` stops the loop. -/
def mergeMember (src : Text F) (k : String) (x : Json F) : Option (Text F) :=
  match x with
  | .obj ms =>
    match L.get src k with
    | none => some (L.set src k ((Json.obj ms).value L.dup))
    | some v =>
      match v.value L.dup with
      | .obj ns => some (L.set src k (((Json.obj ms).value L.dup).deepMergeValues (.obj ns)))
      | _ => none
  | .arr xs =>
    match (L.get src k).map (Json.value L.dup) with
    | some (.arr ys) => some (L.set src k (.arr (ys ++ Json.valueElems L.dup xs)))
    | _ => some (L.set src k ((Json.arr xs).value L.dup))
  | x => some (L.set src k x)

def mergeMembers : Text F → List (String × Json F) → Text F × Option MergeError
  | src, [] => (src, none)
  | src, (k, x) :: ms =>
    match mergeMember L src k x with
    | some src' => mergeMembers src' ms
    | none => (src, some .deepMergeObj)

def mergeJSONSlow (src dst : Text F) : Text F × Option MergeError :=
  if dst.isEmpty then (src, none)
  else if src.isEmpty then (dst, none)
  else if !isObjectText dst || !isObjectText src then ([], some .notObjects)
  else mergeMembers L src (L.each dst)

end Merge

end ThanksComputer

import Mathlib.Data.List.Sort
import ThanksComputer.Lib.Splice
import ThanksComputer.Merge.Slow

/-! `mergeJSONFast` of merge.go: the places of the envelope's values are collected first, then the
result is written in one pass over the envelope's tokens. -/

universe u

namespace ThanksComputer

open Lib.Splice

variable {F : Type u}

namespace Merge

/-- A `gjson.Result` of the envelope: where its value stands, its bytes and the value. -/
structure SrcVal (F : Type u) where
  index : Nat
  raw : String
  val : Json F

def Member.valOffset (m : Member F) : Nat :=
  m.pre.length + 1 + m.sepL.length + 1 + m.sepR.length

/-- The members of an object text with the places of their values. -/
def srcEntries : Nat → List (Member F) → List (String × SrcVal F)
  | _, [] => []
  | pos, m :: ms =>
    (m.name, ⟨pos + Member.valOffset m, m.raw, m.val⟩) :: srcEntries (pos + m.render.length + 1) ms

def rawMatches (src : Text F) (e : SrcVal F) : Bool :=
  match src[e.index]? with
  | some (.val raw _) => raw == e.raw
  | _ => false

def collectSrc (src : Text F) :
    List (String × SrcVal F) → List (String × SrcVal F) → Option (List (String × SrcVal F))
  | [], seen => some seen
  | (k, e) :: es, seen =>
    if !plainMergeKey k then none
    else if (seen.lookup k).isSome then none
    else if e.index == 0 || !rawMatches src e then none
    else collectSrc src es (seen ++ [(k, e)])

variable (L : JsonLib F)

def mergeEncodeScalar : Json F → Option String
  | .str s => some (L.appendStringify s)
  | .bool true => some "true"
  | .bool false => some "false"
  | .num n => some (L.formatFloat n)
  | .null => some "null"
  | .arr _ | .obj _ => none

def marshalFinite (v : Json F) : Option String :=
  if v.finite L.fin then some (L.marshal v) else none

/-- The value a member of the output leaves at its name, with its bytes. -/
def fastValue (sv : Option (SrcVal F)) (x : Json F) : Option (String × Json F) :=
  match x with
  | .obj ms =>
    match sv with
    | some e =>
      match e.val.value L.dup with
      | .obj ns =>
        let v := ((Json.obj ms).value L.dup).deepMergeValues (.obj ns)
        (marshalFinite L v).map (·, v)
      | _ => none
    | none =>
      let v := (Json.obj ms).value L.dup
      (marshalFinite L v).map (·, v)
  | .arr xs =>
    match (sv.map fun e => e.val.value L.dup : Option (Json F)) with
    | some (.arr ys) =>
      let v := Json.arr (ys ++ Json.valueElems L.dup xs)
      (marshalFinite L v).map (·, v)
    | _ =>
      let v := (Json.arr xs).value L.dup
      (marshalFinite L v).map (·, v)
  | x => (mergeEncodeScalar L x).map (·, x)

/-- The splices into the envelope and the members to put in front of it, both in output order. -/
structure Plan (F : Type u) where
  replaces : List (Nat × Tok F)
  prepends : List (Text F)

def collectDst (srcVals : List (String × SrcVal F)) :
    List (String × Json F) → List String → Plan F → Option (Plan F)
  | [], _, plan => some plan
  | (k, x) :: ms, seen, plan =>
    if !plainMergeKey k then none
    else if seen.contains k then none
    else
      match fastValue L (srcVals.lookup k) x with
      | none => none
      | some (raw, v) =>
        collectDst srcVals ms (k :: seen) <|
          match srcVals.lookup k with
          | some e => { plan with replaces := plan.replaces ++ [(e.index, .val raw v)] }
          | none =>
            { plan with
              prepends := plan.prepends ++ [[.key (L.appendStringify k) k, .colon, .val raw v]] }

def nonEmptyAfterBrace : Text F → Bool
  | .ws _ :: t => nonEmptyAfterBrace t
  | .rbrace :: _ => false
  | [] => false
  | _ :: _ => true

def commaJoin : List (Text F) → Text F
  | [] => []
  | [t] => t
  | t :: t' :: ts => t ++ .comma :: commaJoin (t' :: ts)

def emit (src : Text F) (plan : Plan F) : Text F :=
  if plan.replaces.isEmpty && plan.prepends.isEmpty then src
  else
    .lbrace :: commaJoin plan.prepends.reverse ++
      (if !plan.prepends.isEmpty && nonEmptyAfterBrace (src.drop 1) then [.comma] else []) ++
      splice 1 (src.drop 1) (plan.replaces.insertionSort fun a b => a.1 ≤ b.1)

def startsWithBrace : Text F → Bool
  | .lbrace :: _ => true
  | _ => false

def mergeJSONFast (src dst : Text F) : Option (Text F) :=
  if !startsWithBrace src || !startsWithBrace dst then none
  else
    match parse src with
    | none => none
    | some o =>
      match collectSrc src (srcEntries 1 o.members) [] with
      | none => none
      | some srcVals => (collectDst L srcVals (L.each dst) [] ⟨[], []⟩).map (emit src)

def mergeJSON (src dst : Text F) : Text F × Option MergeError :=
  match mergeJSONFast L src dst with
  | some out => (out, none)
  | none => mergeJSONSlow L src dst

end Merge

end ThanksComputer

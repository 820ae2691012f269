import ThanksComputer.Guard.NonForgery
import ThanksComputer.Guard.Paths

/-! The payload a call answers with: one result object at the place `WITH into` names, and what is
left of the caller's envelope when it is merged. -/

universe u

namespace ThanksComputer.Call

open Lib.Assoc Guard Merge

variable {F : Type u}

/-- `callError`; the last two fields are those of a cancelled call. -/
structure CallError where
  code : String
  message : String
  stopped : Option Bool
  running : List String
  deriving DecidableEq

/-- `callResult`; the output is `none` when its raw text is empty. -/
structure CallResult (F : Type u) where
  ok : Bool
  output : Option (Json F)
  error : Option CallError
  stack : String
  version : Int
  ms : Int

def CallError.json (e : CallError) : Json F :=
  .obj ([("code", .str e.code), ("message", .str e.message)] ++
    (match e.stopped with
      | some b => [("stopped", .bool b)]
      | none => []) ++
    (if e.running.isEmpty then [] else [("running", .arr (e.running.map .str))]))

def CallResult.members (num : Int → F) (r : CallResult F) : List (String × Json F) :=
  [("ok", .bool r.ok), ("output", r.output.getD (.obj [])),
    ("error", (r.error.map CallError.json).getD .null), ("stack", .str r.stack),
    ("version", .num (num r.version)), ("ms", .num (num r.ms))]

def CallResult.json (num : Int → F) (r : CallResult F) : Json F :=
  .obj (r.members num)

def callDefaultInto : PathText :=
  "_call".toList

section Into

variable {D : Type u} (G : Gjson D)

def boundedInto (raw : PathText) : PathText :=
  let into := normalizePath raw
  if !into.isEmpty && padsArray G G.empty into maxArrayPad then [] else into

/-- The path of `WITH into`, or the default. -/
def callInto (raw : PathText) : PathText :=
  let into := boundedInto G raw
  if into.isEmpty then callDefaultInto else into

/-- The segments the result is set at: a path sjson refuses falls back to the default. -/
def intoSegs (into : PathText) : PathSeg × List PathSeg :=
  if padsArray G G.empty into maxArrayPad then (⟨"_call", false⟩, [])
  else
    match splitPath into with
    | some (s :: ss) => (s, ss)
    | _ => (⟨"_call", false⟩, [])

end Into

variable (L : JsonLib F)

/-- `BoundedSetRaw` on the empty object. -/
def boundedSetRaw {D : Type u} (G : Gjson D) (path : PathText) (raw : String) (v : Json F) :
    Option (Text F) :=
  if padsArray G G.empty path maxArrayPad then none
  else L.setRaw JsonLib.emptyObj.render path raw v

/-- `callPayload`; `raw` is the text `json.Marshal` makes of the result `v`. -/
def callPayload {D : Type u} (G : Gjson D) (into : PathText) (raw : String) (v : Json F) : Text F :=
  match boundedSetRaw L G into raw v with
  | some t => t
  | none => (L.setRaw JsonLib.emptyObj.render callDefaultInto raw v).getD []

/-- What `Run` makes of the answer of a `call` op: the tail of `finishOutput`, then the merge. -/
def mergeAnswer (env payload : Text F) : Text F :=
  (mergeJSON L env (sanitizeAuthorOutputFor L "call" (extractOpDebug L payload))).1

/-- The value at a path of member names. -/
def envRead (t : Text F) : List String → Option (Json F)
  | [] => none
  | k :: p =>
    match parse t with
    | some o => (o.entries.lookup k).bind fun v => (v.value L.dup).getPath p
    | none => none

/-- Nothing apart from the path is new, gone or changed, and no value that is not an object gives
way to the path. -/
structure OnlyAt (path : List String) (env env' : Text F) : Prop where
  apart : ∀ p, Apart path p → envRead L env' p = envRead L env p
  leaf : ∀ p v, ¬path <+: p → envRead L env p = some v → v.isObject = false →
    envRead L env' p = some v

theorem OnlyAt.refl (path : List String) (env : Text F) : OnlyAt L path env env :=
  ⟨fun _ _ => rfl, fun _ _ _ h _ => h⟩

def clearWay : List String → Json F → Bool
  | k :: ks, .obj ms =>
    match ms.lookup k with
    | some w => ks.isEmpty || (w.isObject && clearWay ks w)
    | none => true
  | _, _ => true

/-- Where a result lands: the envelope is an object with numbers in range, the first key is its own
path and gjson reads it as itself, the others are no array indices, and what stands on the way are
objects. -/
structure Lands (s : PathSeg) (ss : List PathSeg) (env : Text F) : Prop where
  finite : (parse env).any (·.finite L.fin) = true
  own : ownPath s.name = true
  plain : ∀ t ∈ ss, PlainKey t
  reads : plainMergeKey s.name = true ∨ ∀ o, parse env = some o →
    L.get o.render s.name = o.entries.lookup s.name
  way : ∀ w, envRead L env [s.name] = some w → clearWay (segNames ss) w = true

variable {L}

theorem lands_plain {k : String} {env : Text F} (hplain : plainMergeKey k = true)
    (hfinite : (parse env).any (·.finite L.fin) = true) : Lands L ⟨k, false⟩ [] env where
  finite := hfinite
  own := ownPath_of_plain hplain
  plain _ ht := absurd ht List.not_mem_nil
  reads := .inl hplain
  way w _ := by cases w <;> rfl

section Payload

theorem callPayload_eq {D : Type u} (G : Gjson D) (into : PathText) (raw : String) (v : Json F) :
    ∃ o : ObjText F, callPayload L G into raw v = o.render ∧
      o.entries = [((intoSegs G into).1.name, Json.createValue (intoSegs G into).2 v)] := by
  have hset : ∀ path s ss, splitPath path = some (s :: ss) →
      ∃ o : ObjText F, L.setRaw JsonLib.emptyObj.render path raw v = some o.render ∧
        o.entries = [(s.name, Json.createValue ss v)] := by
    intro path s ss hsplit
    have hnone : (JsonLib.emptyObj : ObjText F).find? s.name = none := rfl
    refine ⟨JsonLib.emptyObj.prepend (L.appendStringify s.name) s.name (L.createRaw ss raw)
      (Json.createValue ss v), ?_, rfl⟩
    rw [JsonLib.setRaw, hsplit]
    simp only [parse_render]
    rw [JsonLib.setObj, hnone]
    rfl
  obtain ⟨d, hd, hdefault⟩ := hset callDefaultInto ⟨"_call", false⟩ [] (by decide +kernel)
  rw [callPayload, boundedSetRaw, intoSegs]
  split
  · next t ht =>
    split at ht
    · cases ht
    · next hpad =>
      rw [if_neg hpad]
      cases hsplit : splitPath into with
      | none =>
        rw [JsonLib.setRaw, hsplit] at ht
        cases ht
      | some segs =>
        cases segs with
        | nil =>
          rw [JsonLib.setRaw, hsplit] at ht
          cases ht
        | cons s ss =>
          obtain ⟨o, ho, hentries⟩ := hset into s ss hsplit
          rw [ho, Option.some.injEq] at ht
          exact ⟨o, ht.symm, hentries⟩
  · next hnone =>
    rw [hd, Option.getD_some]
    refine ⟨d, rfl, ?_⟩
    split
    · exact hdefault
    · next hpad =>
      rw [if_neg hpad] at hnone
      cases hsplit : splitPath into with
      | none => exact hdefault
      | some segs =>
        cases segs with
        | nil => exact hdefault
        | cons s ss =>
          obtain ⟨o, ho, -⟩ := hset into s ss hsplit
          rw [ho] at hnone
          cases hnone

def resultNames : List String :=
  ["ok", "output", "error", "stack", "version", "ms"]

theorem keys_members (num : Int → F) (r : CallResult F) : keys (r.members num) = resultNames := rfl

theorem resultNames_not_allowed :
    ∀ p ∈ authorWritable, ∀ k ∈ entryKeys p, k ∉ resultNames := by
  decide +kernel

theorem createValue_of_getPath {es ss : List PathSeg} {ms : List (String × Json F)} {w : Json F}
    (hes : ∀ e ∈ es, PlainKey e) (hss : ∀ s ∈ ss, PlainKey s) (hms : ∀ e ∈ es, e.name ∉ keys ms)
    (h : (Json.createValue ss (.obj ms)).getPath (segNames es) = some w) :
    Json.createValue es w = Json.createValue ss (.obj ms) := by
  induction es generalizing ss with
  | nil =>
    rw [segNames, List.map_nil, Json.getPath_nil, Option.some.injEq] at h
    rw [h]
    rfl
  | cons e es ih =>
    obtain ⟨heidx, heapp⟩ := hes e List.mem_cons_self
    cases ss with
    | nil =>
      have hnone : ms.lookup e.name = none :=
        lookup_eq_none_iff_keys.mpr (hms e List.mem_cons_self)
      rw [segNames, List.map_cons, Json.createValue, Json.getPath_obj_cons, hnone] at h
      cases h
    | cons s ss =>
      obtain ⟨hsidx, hsapp⟩ := hss s List.mem_cons_self
      have hs : Json.createValue (s :: ss) (.obj ms) =
          .obj [(s.name, Json.createValue ss (.obj ms))] := by
        rw [Json.createValue, hsidx]
        simp [hsapp]
      rw [hs, segNames, List.map_cons, Json.getPath_obj_cons] at h
      by_cases hname : e.name = s.name
      · rw [hname, lookup_cons_fst (s.name, _), Option.bind_some] at h
        have hrest := ih (fun e' he' => hes e' (List.mem_cons_of_mem _ he'))
          (fun s' hs' => hss s' (List.mem_cons_of_mem _ hs'))
          (fun e' he' => hms e' (List.mem_cons_of_mem _ he')) h
        rw [hs, Json.createValue, heidx]
        simp [heapp, hname, hrest]
      · rw [lookup_cons_of_ne (e := (s.name, _)) hname] at h
        cases h

theorem setNode_getPath {ss : List PathSeg} {j w : Json F} (h : j.getPath (segNames ss) = some w) :
    Json.setNode ss j w = some j := by
  induction ss generalizing j with
  | nil =>
    rw [segNames, List.map_nil, Json.getPath_nil, Option.some.injEq] at h
    rw [h, Json.setNode]
  | cons s ss ih =>
    rw [segNames, List.map_cons] at h
    cases j with
    | obj ms =>
      rw [Json.getPath_obj_cons, Option.bind_eq_some_iff] at h
      obtain ⟨x, hx, h⟩ := h
      rw [Json.setNode, hx]
      simp only [ih h, Option.map_some, replaceFirst_of_lookup hx]
    | null | bool | num | str | arr => cases h

end Payload

section Sanitized

variable {ss : List PathSeg} {ms : List (String × Json F)}

/-- What is left of the one member of a payload: the member, or nothing. -/
def Left (k : String) (x : Json F) (o : ObjText F) : Prop :=
  o.entries = [] ∨ o.entries = [(k, x)]

theorem Left.delete {k : String} {x : Json F} {o : ObjText F} (h : Left k x o) (k' : String) :
    Left k x (o.delete k') := by
  rw [Left, ObjText.entries_delete]
  rcases h with h | h <;> rw [h]
  · exact .inl rfl
  · by_cases hk : k = k'
    · exact .inl (by simp [hk])
    · exact .inr (by simp [hk])

theorem left_extractOpDebug {k : String} {x : Json F} {o : ObjText F} (h : Left k x o) :
    ∃ o' : ObjText F, extractOpDebug L o.render = o'.render ∧ Left k x o' := by
  rw [extractOpDebug, parse_render]
  split
  · dsimp only
    split
    · exact ⟨_, rfl, h.delete opDebugField⟩
    · exact ⟨o, rfl, h⟩
  · exact ⟨o, rfl, h⟩

theorem left_copyAllowed (hss : ∀ s ∈ ss, PlainKey s) (hms : keys ms = resultNames)
    {raw o : ObjText F} (hraw : Left "_txc" (Json.createValue ss (.obj ms)) raw)
    (h : Left "_txc" (Json.createValue ss (.obj ms)) o) {p : String} (hp : p ∈ authorWritable) :
    ∃ o' : ObjText F, copyAllowed L raw.render o.render p = o'.render ∧
      Left "_txc" (Json.createValue ss (.obj ms)) o' := by
  obtain ⟨es, hsplit, hkeys, hplain, hne⟩ := entryPlain_spec (entryPlain_allowFor "call" p hp)
  rw [copyAllowed]
  split
  · next r w hget =>
    rw [getTxc, parse_render] at hget
    obtain ⟨m, hm, hget⟩ := Option.bind_eq_some_iff.mp hget
    obtain ⟨w', hw, heq⟩ := Option.map_eq_some_iff.mp hget
    cases heq
    have hval : m.val = Json.createValue ss (.obj ms) := by
      have hlook : raw.entries.lookup "_txc" = some m.val := by rw [raw.lookup_entries, hm]; rfl
      rcases hraw with h' | h'
      · rw [h'] at hlook
        cases hlook
      · rw [h', lookup_cons_fst ("_txc", _), Option.some.injEq] at hlook
        exact hlook.symm
    have hnames : ∀ e ∈ es, e.name ∉ keys ms := by
      intro e he
      rw [hms]
      exact resultNames_not_allowed p hp e.name (hkeys ▸ List.mem_map_of_mem he)
    rw [hval, ← hkeys] at hw
    have hchain := createValue_of_getPath hplain hss hnames hw
    rw [JsonLib.setRaw, hsplit]
    simp only [parse_render]
    rcases h with h | h
    · have hnone : o.find? "_txc" = none := by
        have hlook := o.lookup_entries "_txc"
        rw [h] at hlook
        exact Option.map_eq_none_iff.mp hlook.symm
      rw [JsonLib.setObj, hnone]
      refine ⟨_, rfl, .inr ?_⟩
      rw [ObjText.entries_prepend, h, hchain]
    · have hlook : o.entries.lookup "_txc" = some (Json.createValue ss (.obj ms)) := by
        rw [h]
        exact lookup_cons_fst ("_txc", _) []
      obtain ⟨m', hm', hval'⟩ := Option.map_eq_some_iff.mp (o.lookup_entries "_txc" ▸ hlook)
      rw [JsonLib.setObj, hm']
      cases es with
      | nil => exact absurd hkeys.symm hne
      | cons e es =>
        simp only [hval', setNode_getPath hw, Option.map_some, Option.getD_some]
        refine ⟨_, rfl, .inr ?_⟩
        rw [ObjText.entries_replace, h, replaceFirst_of_lookup (lookup_cons_fst ("_txc", _) [])]
  · exact ⟨o, rfl, h⟩

theorem left_sanitize (hss : ∀ s ∈ ss, PlainKey s) (hms : keys ms = resultNames) {k : String}
    {o : ObjText F} (h : Left k (Json.createValue ss (.obj ms)) o) :
    ∃ o' : ObjText F, sanitizeAuthorOutputFor L "call" o.render = o'.render ∧
      Left k (Json.createValue ss (.obj ms)) o' := by
  have hne : o.render.isEmpty = false := by simp [ObjText.render]
  rw [sanitizeAuthorOutputFor_eq, projectTxcAllowed, hne]
  simp only [Bool.false_eq_true, if_false, hasTxc, deleteTxc, parse_render]
  split
  · exact ⟨o, rfl, h⟩
  · next hhas =>
    obtain rfl : k = "_txc" := by
      by_contra hk
      have hlook : o.entries.lookup "_txc" = none := by
        rcases h with h | h <;> rw [h]
        · rfl
        · rw [lookup_cons_of_ne (e := (k, _)) fun heq => hk heq.symm]
          rfl
      rw [o.lookup_entries, Option.map_eq_none_iff] at hlook
      rw [hlook] at hhas
      exact hhas rfl
    have hfold : ∀ ps : List String, (∀ p ∈ ps, p ∈ authorWritable) → ∀ out : ObjText F,
        Left "_txc" (Json.createValue ss (.obj ms)) out → ∃ o' : ObjText F,
          ps.foldl (copyAllowed L o.render) out.render = o'.render ∧
            Left "_txc" (Json.createValue ss (.obj ms)) o' := by
      intro ps hps
      induction ps with
      | nil => exact fun out hout => ⟨out, rfl, hout⟩
      | cons p ps ih =>
        intro out hout
        obtain ⟨out', heq, hout'⟩ := left_copyAllowed hss hms h hout (hps p List.mem_cons_self)
        rw [List.foldl_cons, heq]
        exact ih (fun q hq => hps q (List.mem_cons_of_mem _ hq)) out' hout'
    exact hfold (allowFor "call") (fun p hp => hp) _ (h.delete "_txc")

end Sanitized

section Landing

theorem getPath_merge_of_apart {ss : List PathSeg} (hss : ∀ s ∈ ss, PlainKey s) {q : List String}
    (h : Apart (segNames ss) q) (v y : Json F) :
    (((Json.createValue ss v).value L.dup).getPath q = none) ∧
      (((Json.createValue ss v).value L.dup).deepMergeValues y).getPath q = y.getPath q := by
  have hne : segNames ss ≠ [] := fun hnil => not_apart_nil_left (hnil ▸ h)
  have hconf : Confined [segNames ss] ((Json.createValue ss v).value L.dup) :=
    (Confined.createValue v hss (List.mem_singleton.mpr rfl)
      fun hnil => hne (List.mem_singleton.mp hnil).symm).value L.dup
  have hout : Outside [segNames ss] q := fun e he => (List.mem_singleton.mp he).symm ▸ h
  exact ⟨hconf.getPath_eq_none (by simp) hout, hconf.getPath_deepMergeValues y (by simp) hout⟩

theorem isObject_of_clearWay {ks q : List String} {y w : Json F} (hy : y.isObject = true)
    (hway : clearWay ks y = true) (hq : q <+: ks) (hne : q ≠ ks) (hget : y.getPath q = some w) :
    w.isObject = true := by
  induction ks generalizing q y with
  | nil => exact absurd (List.prefix_nil.mp hq) hne
  | cons k ks ih =>
    cases q with
    | nil =>
      rw [Json.getPath_nil, Option.some.injEq] at hget
      exact hget ▸ hy
    | cons k' q =>
      obtain ⟨rfl, hpre⟩ := List.cons_prefix_cons.mp hq
      cases y with
      | obj ms =>
        rw [Json.getPath_obj_cons, Option.bind_eq_some_iff] at hget
        obtain ⟨x, hx, hget⟩ := hget
        rw [clearWay, hx] at hway
        simp only [Bool.or_eq_true, List.isEmpty_iff, Bool.and_eq_true] at hway
        have hne' : q ≠ ks := fun heq => hne (heq ▸ rfl)
        rcases hway with rfl | ⟨hobj, hway⟩
        · exact absurd (List.prefix_nil.mp hpre) hne'
        · exact ih hobj hway hpre hne' hget
      | null | bool | num | str | arr => cases hy

theorem envRead_render (o : ObjText F) (k : String) (p : List String) :
    envRead L o.render (k :: p) =
      (o.entries.lookup k).bind fun v => (v.value L.dup).getPath p := by
  rw [envRead, parse_render]

theorem onlyAt_set {k : String} (hk : ownPath k = true) {o : ObjText F} {v : Json F}
    (hv : v.finite L.fin = true) {ks : List String}
    (hapart : ∀ q, Apart ks q → (v.value L.dup).getPath q = envRead L o.render (k :: q))
    (hleaf : ∀ q w, ¬ks <+: q → q <+: ks → envRead L o.render (k :: q) = some w →
      w.isObject = true) : OnlyAt L (k :: ks) o.render (L.set o.render k v) := by
  obtain ⟨o', heq, hlook, hrest, -⟩ := set_ownPath hk o (JsonLib.encodeValue_isSome hv)
  have hread : ∀ p, Apart (k :: ks) p → envRead L o'.render p = envRead L o.render p := by
    intro p hp
    cases p with
    | nil => exact absurd hp not_apart_nil_right
    | cons k' q =>
      by_cases hk' : k' = k
      · subst hk'
        rw [envRead_render, hlook, Option.bind_some]
        exact hapart q hp.of_cons
      · rw [envRead_render, envRead_render, o'.lookup_entries, hrest k' hk', ← o.lookup_entries]
  rw [heq]
  refine ⟨hread, fun p w hp hget hw => ?_⟩
  by_cases hpre : p <+: k :: ks
  · cases p with
    | nil => cases hget
    | cons k' q =>
      obtain ⟨rfl, hq⟩ := List.cons_prefix_cons.mp hpre
      have hobj := hleaf q w (fun h => hp ((List.prefix_cons_inj k').mpr h)) hq hget
      rw [hobj] at hw
      cases hw
  · rw [hread p ⟨hp, hpre⟩, hget]

theorem onlyAt_mergeMember {s : PathSeg} {ss : List PathSeg} {o : ObjText F}
    {ms : List (String × Json F)} (h : Lands L s ss o.render)
    (hfin : (Json.obj ms).finite L.fin = true) {src : Text F}
    (hmerge : mergeMember L o.render s.name (Json.createValue ss (.obj ms)) = some src) :
    OnlyAt L (s.name :: segNames ss) o.render src := by
  have ho : o.finite L.fin = true := by simpa [parse_render] using h.finite
  have hx : (Json.createValue ss (.obj ms)).finite L.fin = true :=
    Json.finite_createValue hfin
  have hget : L.get o.render s.name = o.entries.lookup s.name :=
    h.reads.elim (fun hplain => JsonLib.get_plain hplain o) fun hr => hr o (parse_render o)
  obtain ⟨ns, hns⟩ : ∃ ns, Json.createValue ss (.obj ms) = .obj ns := by
    cases ss with
    | nil => exact ⟨ms, rfl⟩
    | cons t ts =>
      obtain ⟨hidx, happ⟩ := h.plain t List.mem_cons_self
      exact ⟨[(t.name, Json.createValue ts (.obj ms))], by simp [Json.createValue, hidx, happ]⟩
  have hval := Json.finite_value L.dup _ hx
  rw [hns, mergeMember, ← hns, hget] at hmerge
  split at hmerge
  · next hnone =>
    cases hmerge
    refine onlyAt_set h.own hval (fun q hq => ?_) fun q w _ _ hw => ?_
    · rw [envRead_render, hnone, Json.value_of_unique L.dup (Json.unique_value L.dup _)]
      exact (getPath_merge_of_apart h.plain hq _ .null).1
    · rw [envRead_render, hnone] at hw
      cases hw
  · next w hw =>
    have hwfin := Json.finite_value L.dup w ((o.finite_iff L.fin).mp ho _ (mem_of_lookup hw))
    split at hmerge
    · next ys hys =>
      cases hmerge
      rw [hys] at hwfin
      have hunique := Json.unique_deepMergeValues
        (Json.unique_value L.dup (Json.createValue ss (.obj ms)))
        (hys ▸ Json.unique_value L.dup w)
      refine onlyAt_set h.own (Json.finite_deepMergeValues _ _ hval hwfin) (fun q hq => ?_)
        fun q x hq hpre hx => ?_
      · rw [envRead_render, hw, Option.bind_some, hys, Json.value_of_unique L.dup hunique]
        exact (getPath_merge_of_apart h.plain hq _ _).2
      · rw [envRead_render, hw, Option.bind_some, hys] at hx
        refine isObject_of_clearWay rfl (h.way (.obj ys) ?_) hpre ?_ hx
        · rw [envRead_render, hw, Option.bind_some, Json.getPath_nil, hys]
        · rintro rfl
          exact hq (List.prefix_refl _)
    · cases hmerge

theorem onlyAt_mergeAnswer {D : Type u} {G : Gjson D} {into : PathText} {raw : String}
    {env : Text F} {ms : List (String × Json F)} (hms : keys ms = resultNames)
    (hfin : (Json.obj ms).finite L.fin = true)
    (h : Lands L (intoSegs G into).1 (intoSegs G into).2 env) :
    OnlyAt L ((intoSegs G into).1.name :: segNames (intoSegs G into).2) env
      (mergeAnswer L env (callPayload L G into raw (.obj ms))) := by
  obtain ⟨o, hparse⟩ : ∃ o, parse env = some o := by
    cases hp : parse env with
    | none =>
      have henv := h.finite
      rw [hp] at henv
      cases henv
    | some o => exact ⟨o, rfl⟩
  obtain rfl := parse_eq_some_iff.mp hparse
  obtain ⟨d, hd, hentries⟩ := callPayload_eq (L := L) G into raw (.obj ms)
  obtain ⟨d₁, hd₁, hleft₁⟩ := left_extractOpDebug (k := (intoSegs G into).1.name)
    (x := Json.createValue (intoSegs G into).2 (.obj ms)) (o := d) (.inr hentries)
  obtain ⟨d₂, hd₂, hleft₂⟩ := left_sanitize (L := L) h.plain hms hleft₁
  rw [mergeAnswer, hd, hd₁, hd₂, mergeJSON_render]
  rcases hleft₂ with hnil | hone
  · rw [hnil]
    exact OnlyAt.refl L _ _
  · rw [hone, mergeMembers]
    split
    · next src hsrc => exact onlyAt_mergeMember h hfin hsrc
    · exact OnlyAt.refl L _ _

/-- A key sjson refuses takes the envelope with it. -/
theorem mergeAnswer_refused {D : Type u} {G : Gjson D} {into : PathText} {raw : String}
    {v : Json F} {env : ObjText F} {k : String} (hsegs : intoSegs G into = (⟨k, false⟩, []))
    (htxc : k ≠ "_txc") (hdebug : k ≠ opDebugField) (hsplit : splitPath (escapeDot k) = none)
    (hget : L.get env.render k = none) :
    mergeAnswer L env.render (callPayload L G into raw v) = [] := by
  obtain ⟨d, hd, hentries⟩ := callPayload_eq (L := L) G into raw v
  rw [hsegs, Json.createValue] at hentries
  have hfind : ∀ k', k ≠ k' → d.find? k' = none := by
    intro k' hne
    have hlook := d.lookup_entries k'
    rw [hentries, lookup_cons_of_ne (e := (k, v)) hne.symm] at hlook
    exact Option.map_eq_none_iff.mp hlook.symm
  have hdebug' : extractOpDebug L d.render = d.render := by
    simp [extractOpDebug, parse_render, hfind _ hdebug]
  have hclean : sanitizeAuthorOutputFor L "call" d.render = d.render := by
    simp [sanitizeAuthorOutputFor_eq, projectTxcAllowed, hasTxc, parse_render, hfind _ htxc]
  have hset : ∀ w, L.set env.render k w = [] := by
    intro w
    cases henc : L.encodeValue w with
    | none => simp [JsonLib.set, henc]
    | some r => simp [JsonLib.set, henc, JsonLib.setRaw, hsplit]
  rw [mergeAnswer, hd, hdebug', hclean, mergeJSON_render, hentries, mergeMembers]
  cases v with
  | null | bool | num | str | arr | obj => simp [mergeMember, hget, hset, mergeMembers]

end Landing

end ThanksComputer.Call

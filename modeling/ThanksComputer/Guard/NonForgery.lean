import ThanksComputer.Guard.Confined
import ThanksComputer.Guard.Sanitize
import ThanksComputer.Merge.Frame

/-! What an author's output can do to the control plane: the paths of `_txc` apart from the
transport's allowlist, before and after its sanitized output is merged. -/

universe u

namespace ThanksComputer.Guard

open Lib.Assoc Merge

variable {F : Type u}

/-- The value at a path under `_txc`, in the first member of that name. -/
def txcRead (L : JsonLib F) (t : Text F) (p : List String) : Option (Json F) :=
  match parse t with
  | some o => (o.entries.lookup "_txc").bind fun v => (v.value L.dup).getPath p
  | none => none

def allowKeys (transport : String) : List (List String) :=
  (allowFor transport).map entryKeys

def KeepsTxc (L : JsonLib F) (transport : String) (env out : Text F) : Prop :=
  ∀ p, Outside (allowKeys transport) p →
    txcRead L (mergeJSON L env (sanitizeAuthorOutputFor L transport out)).1 p = txcRead L env p

/-- The member name resolves to a path that is off the control plane and that sjson accepts on every
value. -/
def safeName (k : String) : Bool :=
  match splitPath (escapeDot k) with
  | some (s :: ss) => s.name != "_txc" && ss.all PathSeg.indexLike
  | _ => false

/-- The names of an output apart from its first `_txc`, which is the one the sanitizer takes. -/
def restNames (o : ObjText F) : List String :=
  (keys o.entries).erase "_txc"

/-- The members of an output apart from its first `_txc`. -/
def restEntries (o : ObjText F) : List (String × Json F) :=
  o.entries.eraseP fun e => e.1 == "_txc"

/-- What is marshalled has no infinite number: the output's members, the allowed paths of its first
`_txc`, and what the objects and arrays among these meet in the envelope. -/
structure MarshalsFinite (L : JsonLib F) (transport : String) (env out : ObjText F) : Prop where
  rest : ∀ e ∈ restEntries out, e.2.finite L.fin = true
  copied : ∀ p ∈ allowFor transport, ∀ raw v, getTxc L out.render p = some (raw, v) →
    v.finite L.fin = true
  met : MeetsFinite L env (restEntries out)
  metTxc : ∀ p ∈ allowFor transport, (getTxc L out.render p).isSome = true →
    ∀ y, env.entries.lookup "_txc" = some y → y.finite L.fin = true

theorem plainMergeKey_txc : plainMergeKey "_txc" = true := by decide

theorem safeName_txc : safeName "_txc" = false := by decide +kernel

theorem safeName_spec {k : String} (h : safeName k = true) :
    ∃ s ss, splitPath (escapeDot k) = some (s :: ss) ∧ s.name ≠ "_txc" ∧
      ∀ s' ∈ ss, s'.indexLike = true := by
  rw [safeName] at h
  split at h
  · next s ss hsplit =>
    rw [Bool.and_eq_true, bne_iff_ne, List.all_eq_true] at h
    exact ⟨s, ss, hsplit, h.1, h.2⟩
  · cases h

def entryPlain (p : String) : Bool :=
  match splitPath (txcPath p) with
  | some (s :: ss) =>
    s == ⟨"_txc", false⟩ && ss.map PathSeg.name == entryKeys p && ss.all (decide <| PlainKey ·) &&
      !(entryKeys p).isEmpty
  | _ => false

theorem entryPlain_allowFor (transport : String) :
    ∀ p ∈ allowFor transport, entryPlain p = true := by
  have hall : ∀ p ∈ authorWritable ++ workspaceWritable, entryPlain p = true := by decide +kernel
  intro p hp
  rw [allowFor] at hp
  split at hp
  · exact hall p hp
  · exact hall p (List.mem_append_left _ hp)

theorem entryPlain_spec {p : String} (h : entryPlain p = true) :
    ∃ ss, splitPath (txcPath p) = some (⟨"_txc", false⟩ :: ss) ∧
      ss.map PathSeg.name = entryKeys p ∧ (∀ s ∈ ss, PlainKey s) ∧ entryKeys p ≠ [] := by
  rw [entryPlain] at h
  split at h
  · next s ss hsplit =>
    simp only [Bool.and_eq_true, beq_iff_eq, List.all_eq_true, decide_eq_true_eq,
      Bool.not_eq_true', List.isEmpty_eq_false_iff] at h
    obtain ⟨⟨⟨rfl, hkeys⟩, hplain⟩, hne⟩ := h
    exact ⟨ss, hsplit, hkeys, hplain, hne⟩
  · cases h

theorem allowKeys_ne_nil (transport : String) : allowKeys transport ≠ [] := by
  rw [allowKeys, allowFor]
  split <;> simp [authorWritable]

theorem nil_notMem_allowKeys (transport : String) : [] ∉ allowKeys transport := by
  intro h
  obtain ⟨p, hp, hnil⟩ := List.mem_map.mp h
  obtain ⟨ss, -, -, -, hne⟩ := entryPlain_spec (entryPlain_allowFor transport p hp)
  exact hne hnil

/-- A member that is confined under `_txc` or resolves elsewhere. -/
def CleanEntry (allow : List (List String)) (e : String × Json F) : Prop :=
  e.1 = "_txc" ∧ Confined allow e.2 ∨ safeName e.1 = true

structure Clean (L : JsonLib F) (allow : List (List String)) (o : ObjText F) : Prop where
  entry : ∀ e ∈ o.entries, CleanEntry allow e
  finite : o.finite L.fin = true

variable {L : JsonLib F}

theorem clean_setObj {allow : List (List String)} {o o' : ObjText F} (h : Clean L allow o)
    (hnil : [] ∉ allow) {ss : List PathSeg} {raw : String} {v : Json F}
    (hv : v.finite L.fin = true) (hs : ∀ s ∈ ss, PlainKey s) (hmem : ss.map PathSeg.name ∈ allow)
    (hset : L.setObj o ⟨"_txc", false⟩ ss raw v = some o') : Clean L allow o' := by
  refine ⟨?_, JsonLib.finite_setObj h.finite hv hset⟩
  rw [JsonLib.setObj] at hset
  split at hset
  · next m hm =>
    have hname : m.name = "_txc" := by simpa using List.find?_some hm
    have hm' : (m.name, m.val) ∈ o.entries := List.mem_map_of_mem (List.mem_of_find?_eq_some hm)
    split at hset
    · exact absurd hmem hnil
    · obtain ⟨w, hw, rfl⟩ := Option.map_eq_some_iff.mp hset
      intro e he
      rw [ObjText.entries_replace] at he
      rcases mem_replaceFirst he with rfl | he
      · rcases h.entry _ hm' with ⟨-, hconf⟩ | hsafe
        · exact .inl ⟨rfl, hconf.setNode v hs hmem hnil hw⟩
        · rw [hname, safeName_txc] at hsafe
          cases hsafe
      · exact h.entry e he
  · cases hset
    intro e he
    rw [ObjText.entries_prepend] at he
    rcases List.mem_cons.mp he with rfl | he
    · exact .inl ⟨rfl, Confined.createValue v hs hmem hnil⟩
    · exact h.entry e he

theorem mem_entries_setObj {o o' : ObjText F} {s : PathSeg} {ss : List PathSeg} {raw : String}
    {v : Json F} (h : L.setObj o s ss raw v = some o') {e : String × Json F} (he : e ∈ o'.entries) :
    e ∈ o.entries ∨ e.1 = s.name := by
  rw [JsonLib.setObj] at h
  split at h
  · split at h
    · cases h
      rw [ObjText.entries_replace] at he
      exact (mem_replaceFirst he).symm.imp_right fun heq => congrArg Prod.fst heq
    · obtain ⟨w, hw, rfl⟩ := Option.map_eq_some_iff.mp h
      rw [ObjText.entries_replace] at he
      exact (mem_replaceFirst he).symm.imp_right fun heq => congrArg Prod.fst heq
  · cases h
    rw [ObjText.entries_prepend] at he
    exact (List.mem_cons.mp he).symm.imp_right fun heq => congrArg Prod.fst heq

theorem clean_copyAllowed {transport p : String} (hp : p ∈ allowFor transport) {raw o : ObjText F}
    (hcopied : ∀ r v, getTxc L raw.render p = some (r, v) → v.finite L.fin = true)
    (h : Clean L (allowKeys transport) o) :
    ∃ o', copyAllowed L raw.render o.render p = o'.render ∧ Clean L (allowKeys transport) o' ∧
      ∀ e ∈ o'.entries, e ∈ o.entries ∨ e.1 = "_txc" ∧ (getTxc L raw.render p).isSome = true := by
  obtain ⟨ss, hsplit, hkeys, hplain, -⟩ := entryPlain_spec (entryPlain_allowFor transport p hp)
  rw [copyAllowed]
  cases hget : getTxc L raw.render p with
  | none => exact ⟨o, rfl, h, fun e he => .inl he⟩
  | some rv =>
    obtain ⟨r, v⟩ := rv
    simp only [JsonLib.setRaw, hsplit, parse_render]
    cases hset : L.setObj o ⟨"_txc", false⟩ ss r v with
    | none => exact ⟨o, rfl, h, fun e he => .inl he⟩
    | some o' =>
      have hmem : ss.map PathSeg.name ∈ allowKeys transport := hkeys ▸ List.mem_map_of_mem hp
      refine ⟨o', rfl, ?_, fun e he => (mem_entries_setObj hset he).imp_right fun hn => ⟨hn, rfl⟩⟩
      exact clean_setObj h (nil_notMem_allowKeys transport) (hcopied r v hget) hplain hmem hset

theorem clean_foldl_copyAllowed {transport : String} {ps : List String}
    (hps : ∀ p ∈ ps, p ∈ allowFor transport) {raw o : ObjText F}
    (hcopied : ∀ p ∈ ps, ∀ r v, getTxc L raw.render p = some (r, v) → v.finite L.fin = true)
    (h : Clean L (allowKeys transport) o) :
    ∃ o', ps.foldl (copyAllowed L raw.render) o.render = o'.render ∧
      Clean L (allowKeys transport) o' ∧
      ∀ e ∈ o'.entries, e ∈ o.entries ∨
        e.1 = "_txc" ∧ ∃ p ∈ ps, (getTxc L raw.render p).isSome = true := by
  induction ps generalizing o with
  | nil => exact ⟨o, rfl, h, fun e he => .inl he⟩
  | cons p ps ih =>
    rw [List.forall_mem_cons] at hps hcopied
    obtain ⟨o₁, heq, h₁, hmem₁⟩ := clean_copyAllowed hps.1 hcopied.1 h
    obtain ⟨o', heq', h', hmem'⟩ := ih hps.2 hcopied.2 h₁
    rw [List.foldl_cons, heq]
    refine ⟨o', heq', h', fun e he => ?_⟩
    rcases hmem' e he with he | ⟨hname, q, hq, hget⟩
    · refine (hmem₁ e he).imp_right fun hc => ⟨hc.1, p, List.mem_cons_self, hc.2⟩
    · exact .inr ⟨hname, q, List.mem_cons_of_mem _ hq, hget⟩

theorem keys_eraseP (k : String) (l : List (String × Json F)) :
    keys (l.eraseP fun e => e.1 == k) = (keys l).erase k := by
  induction l with
  | nil => rfl
  | cons e l ih =>
    by_cases hk : e.1 = k
    · simp [hk]
    · rw [List.eraseP_cons_of_neg (by simpa using hk), keys_cons, keys_cons,
        List.erase_cons_tail (by simpa using hk), ih]

theorem clean_sanitize {transport : String} {env o : ObjText F}
    (hfin : MarshalsFinite L transport env o) (hsafe : ∀ k ∈ restNames o, safeName k = true) :
    ∃ o' : ObjText F, sanitizeAuthorOutputFor L transport o.render = o'.render ∧
      Clean L (allowKeys transport) o' ∧ MeetsFinite L env o'.entries := by
  have hne : o.render.isEmpty = false := by simp [ObjText.render]
  have hrest : ∀ e ∈ restEntries o, safeName e.1 = true := by
    intro e he
    refine hsafe e.1 ?_
    rw [restNames, ← keys_eraseP]
    exact List.mem_map_of_mem he
  rw [sanitizeAuthorOutputFor_eq, projectTxcAllowed, hne]
  simp only [Bool.false_eq_true, if_false, hasTxc, deleteTxc, parse_render]
  split
  · next hnone =>
    rw [Bool.not_eq_true', Option.isSome_eq_false_iff, Option.isNone_iff_eq_none] at hnone
    have hkeys : "_txc" ∉ keys o.entries := by
      rw [← lookup_eq_none_iff_keys, o.lookup_entries, hnone]
      rfl
    have hentries : restEntries o = o.entries := by
      refine List.eraseP_of_forall_not fun e he => ?_
      rw [beq_iff_eq]
      exact fun heq => hkeys (heq ▸ List.mem_map_of_mem he)
    refine ⟨o, rfl, ⟨fun e he => .inr (hrest e (hentries ▸ he)), ?_⟩, hentries ▸ hfin.met⟩
    rw [ObjText.finite_iff, ← hentries]
    exact hfin.rest
  · have hdeleted : (o.delete "_txc").entries = restEntries o := o.entries_delete "_txc"
    have hclean : Clean L (allowKeys transport) (o.delete "_txc") := by
      refine ⟨fun e he => .inr (hrest e (hdeleted ▸ he)), ?_⟩
      rw [ObjText.finite_iff, hdeleted]
      exact hfin.rest
    obtain ⟨o', heq, ho', hmem⟩ := clean_foldl_copyAllowed (fun p hp => hp) hfin.copied hclean
    refine ⟨o', heq, ho', fun e he hcont => ?_⟩
    rcases hmem e he with he | ⟨hname, p, hp, hget⟩
    · exact hfin.met e (hdeleted ▸ he) hcont
    · rw [hname]
      exact ⟨hfin.metTxc p hp hget, fun hplain => by cases plainMergeKey_txc.symm.trans hplain⟩

theorem txcRead_render (o : ObjText F) (p : List String) :
    txcRead L o.render p =
      (o.entries.lookup "_txc").bind fun v => (v.value L.dup).getPath p := by
  rw [txcRead, parse_render]

theorem set_safeName {k : String} (hk : safeName k = true) (o : ObjText F) {v : Json F}
    (hv : (L.encodeValue v).isSome = true) :
    ∃ o' : ObjText F, L.set o.render k v = o'.render ∧
      o'.entries.lookup "_txc" = o.entries.lookup "_txc" ∧
      ∀ ms, v.finite L.fin = true → MeetsFinite L o ms → MeetsFinite L o' ms := by
  obtain ⟨s, ss, hsplit, hname, hidx⟩ := safeName_spec hk
  obtain ⟨raw, henc⟩ := Option.isSome_iff_exists.mp hv
  obtain ⟨o', ho'⟩ :=
    Option.isSome_iff_exists.mp (JsonLib.setObj_isSome (L := L) (o := o) (s := s) hidx raw v)
  refine ⟨o', ?_, JsonLib.lookup_setObj_of_ne ho' hname.symm, fun ms hv hms => hms.setObj hv ho'⟩
  simp [JsonLib.set, henc, JsonLib.setRaw, hsplit, parse_render, ho']

theorem mergeMember_clean (hL : L.ReadsFinite) {allow : List (List String)} (hne : allow ≠ [])
    {e : String × Json F} {ms : List (String × Json F)} {o : ObjText F}
    (ho : MeetsFinite L o (e :: ms)) (he : CleanEntry allow e) (hx : e.2.finite L.fin = true)
    {src : Text F} (h : mergeMember L o.render e.1 e.2 = some src) :
    ∃ o' : ObjText F, src = o'.render ∧ MeetsFinite L o' ms ∧
      ∀ p, Outside allow p → txcRead L o'.render p = txcRead L o.render p := by
  rw [mergeMember_eq] at h
  obtain ⟨v, hmerged, rfl⟩ := Option.map_eq_some_iff.mp h
  have hv := finite_memberValue hx (ho.get hL) hmerged
  have henc := JsonLib.encodeValue_isSome hv
  rcases he with ⟨htxc, hconf⟩ | hsafe
  · obtain ⟨k, x⟩ := e
    simp only at htxc hconf hmerged
    subst htxc
    obtain @⟨_, ms', leads, below⟩ := hconf
    have hconf : Confined allow ((Json.obj ms').value L.dup) :=
      (Confined.obj leads below).value L.dup
    obtain ⟨o', heq, hlook, -, hmeets⟩ := set_ownPath (ownPath_of_plain plainMergeKey_txc) o henc
    refine ⟨o', heq, hmeets ms hv ho.tail, fun p hp => ?_⟩
    rw [txcRead_render, txcRead_render, hlook, Option.bind_some]
    rw [JsonLib.get_plain plainMergeKey_txc] at hmerged
    rw [Json.value_of_unique L.dup (unique_memberValue hmerged)]
    cases hlook' : o.entries.lookup "_txc" with
    | none =>
      rw [hlook'] at hmerged
      cases hmerged
      exact hconf.getPath_eq_none hne hp
    | some w =>
      rw [hlook'] at hmerged
      obtain ⟨ns, hns, rfl⟩ := memberValue_obj hmerged
      rw [Option.bind_some, hconf.getPath_deepMergeValues _ hne hp, hns]
  · obtain ⟨o', heq, hlook, hmeets⟩ := set_safeName hsafe o henc
    exact ⟨o', heq, hmeets ms hv ho.tail, fun p _ => by rw [txcRead_render, txcRead_render, hlook]⟩

theorem mergeMembers_clean (hL : L.ReadsFinite) {allow : List (List String)} (hne : allow ≠ [])
    {ms : List (String × Json F)} (hms : ∀ e ∈ ms, CleanEntry allow e)
    (hfin : ∀ e ∈ ms, e.2.finite L.fin = true) {o : ObjText F} (ho : MeetsFinite L o ms)
    {p : List String} (hp : Outside allow p) :
    txcRead L (mergeMembers L o.render ms).1 p = txcRead L o.render p := by
  induction ms generalizing o with
  | nil => rfl
  | cons e ms ih =>
    rw [mergeMembers]
    split
    · next src hsrc =>
      obtain ⟨o', rfl, ho', hread⟩ :=
        mergeMember_clean hL hne ho (hms e List.mem_cons_self) (hfin e List.mem_cons_self) hsrc
      rw [ih (fun d hd => hms d (List.mem_cons_of_mem _ hd))
        (fun d hd => hfin d (List.mem_cons_of_mem _ hd)) ho', hread p hp]
    · rfl

theorem keepsTxc_of_safeNames (hL : L.ReadsFinite) {transport : String} {env out : ObjText F}
    (hfin : MarshalsFinite L transport env out) (hsafe : ∀ k ∈ restNames out, safeName k = true) :
    KeepsTxc L transport env.render out.render := by
  intro p hp
  obtain ⟨o', heq, hclean, hmet⟩ := clean_sanitize hfin hsafe
  rw [heq, mergeJSON_render]
  exact mergeMembers_clean hL (allowKeys_ne_nil transport) hclean.entry
    ((o'.finite_iff L.fin).mp hclean.finite) hmet hp

theorem outside_tenant (transport : String) : Outside (allowKeys transport) ["tenant"] := by
  have hall : Outside ((authorWritable ++ workspaceWritable).map entryKeys) ["tenant"] := by
    decide +kernel
  intro e he
  obtain ⟨p, hp, rfl⟩ := List.mem_map.mp he
  refine hall _ (List.mem_map_of_mem ?_)
  rw [allowFor] at hp
  split at hp
  · exact hp
  · exact List.mem_append_left _ hp

/-- A value on which a set at the segments fails at the first one that is no index. -/
def nest : List PathSeg → Json F
  | [] => .null
  | s :: ss => if s.indexLike then .obj [(s.name, nest ss)] else .arr []

theorem setNode_nest {ss : List PathSeg} (h : ss.all PathSeg.indexLike = false) (v : Json F) :
    Json.setNode ss (nest ss) v = none := by
  induction ss with
  | nil => cases h
  | cons s ss ih =>
    rw [nest]
    split
    · next hs =>
      rw [List.all_cons, hs, Bool.true_and] at h
      simp [Json.setNode, ih h]
    · next hs =>
      simp only [PathSeg.indexLike, Bool.or_eq_true, not_or, Option.isSome_iff_ne_none,
        ne_eq, not_not, Bool.not_eq_true] at hs
      have hhit : Json.arrayHit ([] : List (Json F)) s = none := by
        rw [Json.arrayHit]
        split
        · simp
        · rfl
      simp [Json.setNode, hhit, hs.1, hs.2]

def tenantEnv (L : JsonLib F) (k : String) (v : Json F) : ObjText F :=
  L.ofEntries [("_txc", .obj [("tenant", .str "acme")]), (k, v)]

theorem txcRead_tenantEnv (k : String) (v : Json F) :
    txcRead L (tenantEnv L k v).render ["tenant"] = some (.str "acme") := by
  rw [txcRead_render, tenantEnv, JsonLib.entries_ofEntries]
  cases h : L.dup <;> rfl

theorem exists_set_null {k : String} (hk : safeName k = false) :
    ∃ k' v, txcRead L (L.set (tenantEnv L k' v).render k .null) ["tenant"] = none := by
  have hempty : txcRead L [] ["tenant"] = none := rfl
  rw [safeName] at hk
  cases hsplit : splitPath (escapeDot k) with
  | none =>
    refine ⟨"", .null, ?_⟩
    simpa [JsonLib.set, JsonLib.encodeValue, JsonLib.setRaw, hsplit] using hempty
  | some segs =>
    cases segs with
    | nil =>
      refine ⟨"", .null, ?_⟩
      simpa [JsonLib.set, JsonLib.encodeValue, JsonLib.setRaw, hsplit] using hempty
    | cons s ss =>
      have hset : ∀ o : ObjText F, L.set o.render k .null =
          ((L.setObj o s ss "null" .null).map ObjText.render).getD [] := by
        intro o
        simp [JsonLib.set, JsonLib.encodeValue, JsonLib.setRaw, hsplit, parse_render]
      rw [hsplit] at hk
      by_cases hs : s.name = "_txc"
      · have hss : ss = [] := by
          apply splitPath_escapeDot_tail_nil hsplit
          intro l hl
          rw [hs] at hl
          have hlast := congrArg (fun t => t.toList.getLast?) hl
          simp at hlast
        subst hss
        refine ⟨"", .null, ?_⟩
        have hfind : ((tenantEnv L "" .null).find? "_txc").isSome = true := by
          simp [ObjText.find?, tenantEnv, JsonLib.ofEntries]
        obtain ⟨m, hm⟩ := Option.isSome_iff_exists.mp hfind
        rw [hset, JsonLib.setObj, hs, hm]
        simp only [Option.map_some, Option.getD_some]
        rw [txcRead_render, ObjText.entries_replace, lookup_replaceFirst_self]
        · rfl
        · simp [tenantEnv]
      · have hidx : ss.all PathSeg.indexLike = false := by simpa [hs] using hk
        refine ⟨s.name, nest ss, ?_⟩
        have hfind : ((tenantEnv L s.name (nest ss)).find? s.name).map Member.val =
            some (nest ss) := by
          rw [← ObjText.lookup_entries, tenantEnv, JsonLib.entries_ofEntries,
            lookup_cons_of_ne (e := ("_txc", _)) hs]
          exact lookup_cons_fst (s.name, nest ss) []
        obtain ⟨m, hm, hval⟩ := Option.map_eq_some_iff.mp hfind
        rw [hset, JsonLib.setObj, hm]
        cases ss with
        | nil => cases hidx
        | cons s' ss =>
          simp only [hval, setNode_nest hidx]
          exact hempty

/-- An output whose members are `null`, the first `_txc` apart all of one name. -/
def nullOut (L : JsonLib F) (k : String) : ObjText F :=
  if k = "_txc" then L.ofEntries [("_txc", .null), ("_txc", .null)] else L.ofEntries [(k, .null)]

theorem restNames_nullOut (k : String) : restNames (nullOut L k) = [k] := by
  rw [nullOut]
  split
  · next hk => simp [restNames, hk]
  · next hk =>
    rw [restNames, JsonLib.entries_ofEntries]
    exact List.erase_of_not_mem (by simpa using fun h => hk h.symm)

theorem getTxc_nullOut {transport p : String} (hp : p ∈ allowFor transport) (k : String) :
    getTxc L (nullOut L k).render p = none := by
  obtain ⟨ss, -, -, -, hnil⟩ := entryPlain_spec (entryPlain_allowFor transport p hp)
  obtain ⟨l, ks, hks⟩ := List.exists_cons_of_ne_nil hnil
  simp only [getTxc, parse_render]
  rw [nullOut]
  split
  · simp [hks, ObjText.find?, JsonLib.ofEntries, Json.getPath]
  · next hk => simp [ObjText.find?, JsonLib.ofEntries, hk]

theorem sanitize_nullOut (transport k : String) :
    ∃ o : ObjText F, sanitizeAuthorOutputFor L transport (nullOut L k).render = o.render ∧
      o.entries = [(k, .null)] := by
  have hne : (nullOut L k).render.isEmpty = false := by simp [ObjText.render]
  have hfold : ∀ ps : List String, (∀ p ∈ ps, p ∈ allowFor transport) → ∀ out,
      ps.foldl (copyAllowed L (nullOut L k).render) out = out := by
    intro ps hps out
    induction ps with
    | nil => rfl
    | cons p ps ih =>
      rw [List.forall_mem_cons] at hps
      rw [List.foldl_cons, copyAllowed, getTxc_nullOut hps.1]
      exact ih hps.2
  rw [sanitizeAuthorOutputFor_eq, projectTxcAllowed, hne]
  simp only [Bool.false_eq_true, if_false, hasTxc, deleteTxc, parse_render, hfold _ fun p hp => hp]
  rw [nullOut]
  split
  · next hk =>
    subst hk
    have hhas : ((L.ofEntries [("_txc", .null), ("_txc", .null)]).find? "_txc").isSome = true := by
      simp [ObjText.find?, JsonLib.ofEntries]
    rw [hhas]
    exact ⟨_, rfl, by simp⟩
  · next hk =>
    have hhas : ((L.ofEntries [(k, .null)]).find? "_txc").isSome = false := by
      simp [ObjText.find?, JsonLib.ofEntries, hk]
    rw [hhas]
    exact ⟨_, rfl, by simp⟩

theorem mem_nullOut {k : String} {e : String × Json F} (he : e ∈ restEntries (nullOut L k)) :
    e.2 = .null := by
  have he := List.mem_of_mem_eraseP he
  rw [nullOut] at he
  split at he
  · simp only [JsonLib.entries_ofEntries, List.mem_cons, List.not_mem_nil, or_false, or_self] at he
    rw [he]
  · simp only [JsonLib.entries_ofEntries, List.mem_singleton] at he
    rw [he]

theorem marshalsFinite_nullOut (transport k : String) (env : ObjText F) :
    MarshalsFinite L transport env (nullOut L k) where
  rest e he := by
    rw [mem_nullOut he]
    rfl
  copied p hp raw v hget := by
    rw [getTxc_nullOut hp] at hget
    cases hget
  met e he hcont := by
    rw [mem_nullOut he] at hcont
    cases hcont
  metTxc p hp hget := by
    rw [getTxc_nullOut hp] at hget
    cases hget

theorem exists_not_keepsTxc (transport : String) {k : String} (hk : safeName k = false) :
    ∃ env out : ObjText F, MarshalsFinite L transport env out ∧ restNames out = [k] ∧
      ¬KeepsTxc L transport env.render out.render := by
  obtain ⟨k', v, hread⟩ := exists_set_null (L := L) hk
  obtain ⟨o, heq, hentries⟩ := sanitize_nullOut (L := L) transport k
  refine ⟨tenantEnv L k' v, nullOut L k, marshalsFinite_nullOut transport k _, restNames_nullOut k,
    fun hkeeps => ?_⟩
  have h := hkeeps ["tenant"] (outside_tenant transport)
  rw [txcRead_tenantEnv, heq, mergeJSON_render, hentries, mergeMembers] at h
  have hmember : mergeMember L (tenantEnv L k' v).render k .null =
      some (L.set (tenantEnv L k' v).render k .null) := rfl
  rw [hmember] at h
  simp only [mergeMembers] at h
  rw [hread] at h
  cases h

theorem keepsTxc_single {transport : String} {env out : ObjText F} {k : String} {x v : Json F}
    {p : List String} (hk : safeName k = true) (hout : out.entries = [(k, x)])
    (hv : memberValue L.dup x (L.get env.render k) = some v) (hp : Outside (allowKeys transport) p)
    (hread : (txcRead L env.render p).isSome = true) :
    KeepsTxc L transport env.render out.render ↔ (L.encodeValue v).isSome = true := by
  have hne : k ≠ "_txc" := by
    rintro rfl
    rw [safeName_txc] at hk
    cases hk
  have htxc : hasTxc L out.render = false := by
    have hlook : out.entries.lookup "_txc" = none := by
      rw [hout, lookup_cons_of_ne (e := (k, x)) hne.symm]
      rfl
    rw [out.lookup_entries, Option.map_eq_none_iff] at hlook
    simp only [hasTxc, parse_render, hlook, Option.isSome_none]
  have hsanitized : sanitizeAuthorOutputFor L transport out.render = out.render := by
    have hfull : out.render.isEmpty = false := by simp [ObjText.render]
    rw [sanitizeAuthorOutputFor_eq, projectTxcAllowed, hfull, htxc]
    rfl
  have hmerge : (mergeJSON L env.render out.render).1 = L.set env.render k v := by
    rw [mergeJSON_render, hout, mergeMembers, mergeMember_eq, hv]
    rfl
  rw [KeepsTxc, hsanitized, hmerge]
  constructor
  · intro hkeeps
    by_contra hnone
    rw [Bool.not_eq_true, Option.isSome_eq_false_iff, Option.isNone_iff_eq_none] at hnone
    rw [← hkeeps p hp, JsonLib.set, hnone] at hread
    cases hread
  · intro henc q _
    obtain ⟨o', heq, hlook, -⟩ := set_safeName hk env henc
    rw [heq, txcRead_render, txcRead_render, hlook]

theorem not_keepsTxc_of_not_object {transport : String} {env : ObjText F} {p : List String}
    (hp : Outside (allowKeys transport) p) (hread : (txcRead L env.render p).isSome = true)
    {t : Text F} (hne : t.isEmpty = false) (hobj : isObjectText t = false)
    (htxc : hasTxc L t = false) : ¬KeepsTxc L transport env.render t := by
  intro hkeeps
  have h := hkeeps p hp
  have henv : env.render.isEmpty = false := by simp [ObjText.render]
  have hmerge : (mergeJSON L env.render t).1 = [] := by
    simp [mergeJSON_eq_slow, mergeJSONSlow, hne, henv, hobj]
  rw [sanitizeAuthorOutputFor_eq, projectTxcAllowed, hne, htxc] at h
  simp only [Bool.false_eq_true, if_false, Bool.not_false, if_true, hmerge] at h
  rw [← h] at hread
  cases hread

/-- A vocabulary of member names is harmless, in every output that draws its names from it apart
from one `_txc` and has nothing infinite marshalled, exactly when each of its names is safe.  An
output of one such member is harmless exactly when the value it is merged to can be marshalled, and
an output that is no object never is. -/
theorem keepsTxc_iff_safeName (hL : L.ReadsFinite) (transport : String) (vocabulary : Set String) :
    ((∀ k ∈ vocabulary, safeName k = true) ↔
      ∀ env out : ObjText F, MarshalsFinite L transport env out →
        (∀ k ∈ restNames out, k ∈ vocabulary) → KeepsTxc L transport env.render out.render) ∧
    (∀ (env out : ObjText F) (k : String) (x v : Json F) (p : List String), safeName k = true →
      out.entries = [(k, x)] → memberValue L.dup x (L.get env.render k) = some v →
        Outside (allowKeys transport) p → (txcRead L env.render p).isSome = true →
          (KeepsTxc L transport env.render out.render ↔ (L.encodeValue v).isSome = true)) ∧
    ∀ (env : ObjText F) (p : List String) (t : Text F), Outside (allowKeys transport) p →
      (txcRead L env.render p).isSome = true → t.isEmpty = false → isObjectText t = false →
        hasTxc L t = false → ¬KeepsTxc L transport env.render t := by
  refine ⟨⟨fun hsafe env out hfin hnames => ?_, fun hkeeps k hk => ?_⟩, ?_, ?_⟩
  · exact keepsTxc_of_safeNames hL hfin fun k hk => hsafe k (hnames k hk)
  · by_contra hunsafe
    rw [Bool.not_eq_true] at hunsafe
    obtain ⟨env, out, hfin, hnames, hnot⟩ := exists_not_keepsTxc (L := L) transport hunsafe
    refine hnot (hkeeps env out hfin ?_)
    rw [hnames]
    simpa using hk
  · intro env out k x v p hk hout hv hp hread
    exact keepsTxc_single hk hout hv hp hread
  · intro env p t hp hread hne hobj htxc
    exact not_keepsTxc_of_not_object hp hread hne hobj htxc

theorem keepsTxc_greeting :
    (intLib .first).ReadsFinite ∧
      KeepsTxc (intLib .first) "http"
        ((intLib .first).ofEntries [("_txc", .obj [("tenant", .str "acme")])]).render
        ((intLib .first).ofEntries
          [("_txc", .obj [("tenant", .str "evil"), ("halt", .bool true)]),
            ("greeting", .str "hi")]).render := by
  have hL : (intLib .first).ReadsFinite := by
    intro o path raw v _ h
    cases h
  refine ⟨hL, (keepsTxc_iff_safeName hL "http" {"greeting"}).1.mp ?_ _ _ ?_ ?_⟩
  · intro k hk
    rw [Set.mem_singleton_iff.mp hk]
    decide +kernel
  · exact ⟨fun e _ => finite_intLib _ e.2, fun _ _ _ v _ => finite_intLib _ v,
      fun _ _ _ => ⟨fun y _ => finite_intLib _ y, fun _ => by decide +kernel⟩,
      fun _ _ _ y _ => finite_intLib _ y⟩
  · intro k hk
    simpa [restNames] using hk

def isStr (s : String) : Option (Json F) → Bool
  | some (.str t) => t == s
  | _ => false

/-- The sanitizer deletes one `_txc` and the merger takes the other. -/
theorem not_keepsTxc_second_txc :
    ¬KeepsTxc (intLib .first) "http"
        ((intLib .first).ofEntries [("_txc", .obj [("tenant", .str "acme")])]).render
        ((intLib .first).ofEntries
          [("_txc", .obj []), ("_txc", .obj [("tenant", .str "evil")])]).render ∧
    ¬KeepsTxc (intLib .last) "http"
        ((intLib .last).ofEntries [("_txc", .obj [("tenant", .str "acme")])]).render
        ((intLib .last).ofEntries
          [("_txc", .obj []), ("_txc", .obj [("tenant", .str "evil")])]).render := by
  constructor
  · intro h
    have htenant := h ["tenant"] (outside_tenant "http")
    have hforged : isStr "evil" (txcRead (intLib .first) (mergeJSON (intLib .first)
        ((intLib .first).ofEntries [("_txc", .obj [("tenant", .str "acme")])]).render
        (sanitizeAuthorOutputFor (intLib .first) "http" ((intLib .first).ofEntries
          [("_txc", .obj []), ("_txc", .obj [("tenant", .str "evil")])]).render)).1
        ["tenant"]) = true := by decide +kernel
    rw [htenant] at hforged
    revert hforged
    decide +kernel
  · intro h
    have htenant := h ["tenant"] (outside_tenant "http")
    have hforged : isStr "evil" (txcRead (intLib .last) (mergeJSON (intLib .last)
        ((intLib .last).ofEntries [("_txc", .obj [("tenant", .str "acme")])]).render
        (sanitizeAuthorOutputFor (intLib .last) "http" ((intLib .last).ofEntries
          [("_txc", .obj []), ("_txc", .obj [("tenant", .str "evil")])]).render)).1
        ["tenant"]) = true := by decide +kernel
    rw [htenant] at hforged
    revert hforged
    decide +kernel

end ThanksComputer.Guard

import ThanksComputer.Kv.LazyExpiry
import ThanksComputer.Lib.Glob
import ThanksComputer.Net.Text

/-! The listing of a namespace (`kv.go`), and what the redis backend lists
(`redisstore/redisstore.go`): the keys that match a pattern, while `Get` asks for a key as it is. -/

namespace ThanksComputer.Kv

variable {V α β : Type} {be : Backend V} {cfg : Config V} {s : Store V}

section Listing

/-- `strings.TrimPrefix`. -/
def trimPrefix (s pre : String) : String :=
  if pre.toList.isPrefixOf s.toList then String.ofList (s.toList.drop pre.toList.length) else s

/-- What the keys of a namespace begin with. -/
def nsPrefix (tenant ns : String) : String :=
  tenant ++ "/" ++ ns ++ "/"

/-- One pass of the loop of `listAll`. -/
def entry (pre : String) (now : Nat) (p : String × Pair V) : Option (String × V) :=
  let key := trimPrefix p.1 pre
  if key = "" ∨ '/' ∈ key.toList then none
  else
    match p.2.value with
    | .corrupt _ => none
    | .wrapped w => if w.expired now then none else some (key, w.v)

/-- `listAll`, of the pairs the backend lists. -/
def listAll (tenant ns : String) (now : Nat) (listed : List (String × Pair V)) :
    Except Error (List (String × V)) :=
  if segOK tenant = false then .error .invalidTenant
  else if segOK ns = false then .error (.invalidNamespace ns)
  else .ok (listed.filterMap (entry (nsPrefix tenant ns) now))

def listKeys (tenant ns : String) (now : Nat) (listed : List (String × Pair V)) :
    Except Error (List String) :=
  (listAll tenant ns now listed).map (List.map Prod.fst)

end Listing

section Redis

/-- `normalize` of the redis backend. -/
def normalize (key : String) : String :=
  trimPrefix key "/"

def scanPattern (pre : String) : String :=
  pre ++ "*"

def Blob.isEmpty : Blob V → Bool
  | .corrupt text => text == ""
  | .wrapped _ => false

/-- One reply of `mget`: keys that are gone, empty values and the prefix itself are left out. -/
def reply (s : Store V) (pre k : String) : Option (String × Pair V) :=
  match s.data k with
  | none => none
  | some p => if p.value.isEmpty || k == pre then none else some (k, p)

def mget (s : Store V) (pre : String) (keys : List String) : List (String × Pair V) :=
  keys.filterMap (reply s pre)

/-- `List` of the redis backend, when the `SCAN` reports `scanned`. -/
def redisList (s : Store V) (directory : String) (scanned : List String) : List (String × Pair V) :=
  mget s (normalize directory) scanned

def bytes (s : String) : List UInt8 :=
  s.toList.flatMap String.utf8EncodeChar

/-- `SCAN` with `MATCH`: the stored keys that match, each once or more, in any order. -/
def Scans (s : Store V) (pattern : String) (scanned : List String) : Prop :=
  ∀ k, k ∈ scanned ↔ (s.data k).isSome = true ∧ Lib.Glob.glob (bytes pattern) (bytes k) = true

end Redis

section Sequence

namespace Prog

/-- A call that nothing comes in between. -/
def run (be : Backend V) : Prog V α → Store V → Store V × α
  | .pure a, s => (s, a)
  | .now next, s => (next s.clock).run be s
  | .get key next, s => (next (s.data key)).run be s
  | .getMulti keys next, s => (next (keys.map s.data)).run be s
  | .put key w next, s => next.run be (s.put key w)
  | .putMulti kws next, s => next.run be (s.putMulti kws)
  | .atomicPut key w prev next, s =>
    match s.refusal be.same key prev with
    | some e => (next (some e)).run be s
    | none => (next none).run be (s.put key w)
  | .delete key next, s => next.run be (s.delete key)
  | .deleteMulti keys next, s => next.run be (s.deleteMulti keys)
  | .collect key seen next, s => next.run be (s.collect key seen)

theorem run_bind (p : Prog V α) (g : α → Prog V β) (s : Store V) :
    (p.bind g).run be s = (g (p.run be s).2).run be (p.run be s).1 := by
  induction p generalizing s with
  | pure a => rfl
  | atomicPut key w prev next ih =>
    rw [bind, run, run]
    split
    · exact ih _ _
    · exact ih _ _
  | now next ih | get key next ih | getMulti keys next ih => exact ih _ _
  | put key w next ih | putMulti kws next ih | delete key next ih | deleteMulti keys next ih
  | collect key seen next ih => exact ih _

end Prog

/-- Calls one after the other on a store that was empty, with time passing in between. -/
inductive Reached (cfg : Config V) (be : Backend V) : Store V → Prop
  | start (clock : Nat) : Reached cfg be ⟨fun _ => none, 0, clock, []⟩
  | call {s : Store V} (h : Reached cfg be s) (c : Call V) :
      Reached cfg be ((code cfg be c).run be s).1
  | tick {s : Store V} (h : Reached cfg be s) (clock : Nat) (hclock : s.clock ≤ clock) :
      Reached cfg be { s with clock }

/-- The value that `Get` finds. -/
def Found (be : Backend V) (s : Store V) (tenant ns key : String) : Prop :=
  ∃ v, ((get tenant ns key : Run V).run be s).2 = .value (some v)

end Sequence

section Keys

/-- The key is one that `fullKey` makes. -/
def IsKey (k : String) : Prop :=
  ∃ tenant ns key, segOK tenant = true ∧ segOK ns = true ∧ segOK key = true ∧
    k = nsPrefix tenant ns ++ key

theorem fullKey_eq_ok {tenant ns key k : String} :
    fullKey tenant ns key = .ok k ↔
      segOK tenant = true ∧ segOK ns = true ∧ segOK key = true ∧ k = nsPrefix tenant ns ++ key := by
  rw [fullKey]
  by_cases ht : segOK tenant = false
  · rw [if_pos ht, ht]
    simp
  rw [if_neg ht]
  by_cases hn : segOK ns = false
  · rw [if_pos hn, hn]
    simp
  rw [if_neg hn]
  by_cases hk : segOK key = false
  · rw [if_pos hk, hk]
    simp
  rw [if_neg hk, nsPrefix]
  simp [Bool.not_eq_false] at ht hn hk
  simp [ht, hn, hk, eq_comm]

theorem isKey_of_fullKey {tenant ns key k : String} (h : fullKey tenant ns key = .ok k) :
    IsKey k := by
  obtain ⟨ht, hn, hk, heq⟩ := fullKey_eq_ok.mp h
  exact ⟨tenant, ns, key, ht, hn, hk, heq⟩

/-- The program writes only under keys that `fullKey` makes. -/
def Composes : Prog V α → Prop
  | .pure _ => True
  | .now next => ∀ t, Composes (next t)
  | .get _ next => ∀ p, Composes (next p)
  | .getMulti _ next => ∀ ps, Composes (next ps)
  | .put key _ next => IsKey key ∧ Composes next
  | .putMulti kws next => (∀ kw ∈ kws, IsKey kw.1) ∧ Composes next
  | .atomicPut key _ _ next => IsKey key ∧ ∀ e, Composes (next e)
  | .delete _ next | .deleteMulti _ next | .collect _ _ next => Composes next

theorem Full.isKey {k : String} (h : Full k) : IsKey k := by
  obtain ⟨tenant, ns, key, hk⟩ := h
  exact isKey_of_fullKey hk

theorem Keeps.composes {t : Nat} {seen : Option (String × Option (Pair V))} {p : Run V}
    (h : Keeps t seen p) : Composes p := by
  induction p generalizing t seen with
  | pure a => trivial
  | now next ih => exact fun u => ih u (h u)
  | get key next ih => exact fun p => ih p (h p)
  | getMulti keys next ih => exact fun ps => ih ps (h ps)
  | put key w next ih => exact ⟨h.1.isKey, ih (h.2 seen)⟩
  | putMulti kws next ih => exact ⟨fun kw hkw => (h.1 kw hkw).isKey, ih (h.2 seen)⟩
  | atomicPut key w prev next ih =>
    obtain ⟨hkey, -, ⟨a, ha⟩, herror⟩ := h
    refine ⟨hkey.isKey, ?_⟩
    rintro (_ | e)
    · rw [ha]
      trivial
    · exact ih _ (herror e)
  | delete key next ih => exact ih (h seen)
  | deleteMulti keys next ih => exact ih (h seen)
  | collect key seen next ih => exact ih (h.2 none)

def KeysOk (s : Store V) : Prop :=
  ∀ k, (s.data k).isSome = true → IsKey k

theorem KeysOk.put (h : KeysOk s) {key : String} (hkey : IsKey key) (w : Wrapper V) :
    KeysOk (s.put key w) := by
  intro k hk
  by_cases heq : k = key
  · exact heq ▸ hkey
  · rw [Store.put] at hk
    dsimp only at hk
    rw [Function.update_of_ne heq] at hk
    exact h k hk

theorem KeysOk.remove (h : KeysOk s) {s' : Store V} {key : String}
    (hdata : s'.data = Function.update s.data key none) : KeysOk s' := by
  intro k hk
  rw [hdata] at hk
  by_cases heq : k = key
  · rw [heq, Function.update_self] at hk
    cases hk
  · rw [Function.update_of_ne heq] at hk
    exact h k hk

theorem KeysOk.putMulti (h : KeysOk s) {kws : List (String × Wrapper V)}
    (hkws : ∀ kw ∈ kws, IsKey kw.1) : KeysOk (s.putMulti kws) := by
  rw [Store.putMulti]
  induction kws generalizing s with
  | nil => exact h
  | cons kw kws ih =>
    rw [List.forall_mem_cons] at hkws
    exact ih (h.put hkws.1 kw.2) hkws.2

theorem KeysOk.deleteMulti (h : KeysOk s) (keys : List String) : KeysOk (s.deleteMulti keys) := by
  rw [Store.deleteMulti]
  induction keys generalizing s with
  | nil => exact h
  | cons key keys ih => exact ih (h.remove rfl)

theorem KeysOk.run {p : Prog V α} (hp : Composes p) (h : KeysOk s) :
    KeysOk (p.run be s).1 := by
  induction p generalizing s with
  | pure a => exact h
  | now next ih => exact ih _ (hp _) h
  | get key next ih => exact ih _ (hp _) h
  | getMulti keys next ih => exact ih _ (hp _) h
  | put key w next ih => exact ih hp.2 (h.put hp.1 w)
  | putMulti kws next ih => exact ih hp.2 (h.putMulti hp.1)
  | atomicPut key w prev next ih =>
    rw [Prog.run]
    split
    · exact ih _ (hp.2 _) h
    · exact ih _ (hp.2 _) (h.put hp.1 w)
  | delete key next ih => exact ih hp (h.remove rfl)
  | deleteMulti keys next ih => exact ih hp (h.deleteMulti keys)
  | collect key seen next ih => exact ih hp (h.remove rfl)

end Keys

section Calls

theorem Reached.keysOk (h : Reached cfg be s) : KeysOk s := by
  induction h with
  | start clock => exact fun k hk => by cases hk
  | call h c ih => exact ih.run (keeps_code 0 c).composes
  | tick h clock hclock ih => exact ih

end Calls

section Exact

variable {tenant ns key k : String}

theorem segOK_ne_empty (h : segOK k = true) : k ≠ "" := by
  rw [segOK, Bool.and_eq_true, Bool.and_eq_true, bne_iff_ne] at h
  exact h.1.1

theorem segOK_slash (h : segOK k = true) : '/' ∉ k.toList := by
  rw [segOK, Bool.and_eq_true] at h
  intro hmem
  have hall := List.all_eq_true.mp h.2 '/' hmem
  rw [bne_self_eq_false, Bool.false_and, Bool.false_and] at hall
  cases hall

theorem toList_nsPrefix (tenant ns : String) :
    (nsPrefix tenant ns).toList = tenant.toList ++ '/' :: (ns.toList ++ ['/']) := by
  rw [nsPrefix, String.toList_append, String.toList_append, String.toList_append, List.append_assoc,
    List.append_assoc]
  rfl

theorem toList_nsPrefix_append (tenant ns key : String) :
    (nsPrefix tenant ns ++ key).toList = tenant.toList ++ '/' ::
      (ns.toList ++ '/' :: key.toList) := by
  rw [String.toList_append, toList_nsPrefix]
  simp

theorem nsPrefix_append_inj {tenant' ns' key' : String} (ht : segOK tenant = true)
    (hn : segOK ns = true) (ht' : segOK tenant' = true) (hn' : segOK ns' = true)
    (h : nsPrefix tenant ns ++ key = nsPrefix tenant' ns' ++ key') : key = key' := by
  have hlist := congrArg (fun s => Net.cut '/' s.toList) h
  rw [toList_nsPrefix_append, toList_nsPrefix_append, Net.cut_append (segOK_slash ht),
    Net.cut_append (segOK_slash ht'), Option.some.injEq, Prod.mk.injEq] at hlist
  have hrest := congrArg (Net.cut '/') hlist.2
  rw [Net.cut_append (segOK_slash hn), Net.cut_append (segOK_slash hn'), Option.some.injEq,
    Prod.mk.injEq] at hrest
  exact String.toList_injective hrest.2

theorem slash_mem_of_isKey (h : IsKey k) : '/' ∈ k.toList := by
  obtain ⟨tenant, ns, key, -, -, -, rfl⟩ := h
  rw [toList_nsPrefix_append]
  exact List.mem_append_right _ List.mem_cons_self

theorem trimPrefix_append (pre key : String) : trimPrefix (pre ++ key) pre = key := by
  rw [trimPrefix, String.toList_append,
    if_pos (List.isPrefixOf_iff_prefix.mpr (List.prefix_append _ _)),
    List.drop_left, String.ofList_toList]

/-- What is left of a composed key behind the prefix is a user key just when the key is one of the
namespace. -/
theorem trimPrefix_iff (ht : segOK tenant = true) (hn : segOK ns = true) (hk : IsKey k) :
    (trimPrefix k (nsPrefix tenant ns) = key ∧ ¬ (key = "" ∨ '/' ∈ key.toList)) ↔
      k = nsPrefix tenant ns ++ key ∧ segOK key = true := by
  constructor
  · rintro ⟨htrim, hkey⟩
    rw [not_or] at hkey
    rw [trimPrefix] at htrim
    split at htrim
    · next hpre =>
      have heq : k = nsPrefix tenant ns ++ key := by
        apply String.toList_injective
        rw [String.toList_append, ← htrim, String.toList_ofList]
        exact List.prefix_iff_eq_append.mp (List.isPrefixOf_iff_prefix.mp hpre) |>.symm
      obtain ⟨tenant', ns', key', ht', hn', hk', heq'⟩ := hk
      have hsame := nsPrefix_append_inj ht hn ht' hn' (heq.symm.trans heq')
      exact ⟨heq, hsame ▸ hk'⟩
    · exact absurd (htrim ▸ slash_mem_of_isKey hk) hkey.2
  · rintro ⟨rfl, hkey⟩
    refine ⟨trimPrefix_append _ _, ?_⟩
    rintro (h | h)
    · exact segOK_ne_empty hkey h
    · exact segOK_slash hkey h

theorem normalize_nsPrefix (ht : segOK tenant = true) :
    normalize (nsPrefix tenant ns) = nsPrefix tenant ns := by
  rw [normalize, trimPrefix, if_neg]
  intro hpre
  obtain ⟨rest, hrest⟩ := List.isPrefixOf_iff_prefix.mp hpre
  rw [toList_nsPrefix] at hrest
  cases hlist : tenant.toList with
  | nil => exact segOK_ne_empty ht (String.toList_eq_nil_iff.mp hlist)
  | cons c cs =>
    rw [hlist] at hrest
    have hc : '/' = c := (List.cons_eq_cons.mp hrest).1
    exact segOK_slash ht (hlist ▸ hc ▸ List.mem_cons_self)

theorem found_iff (ht : segOK tenant = true) (hn : segOK ns = true) :
    Found be s tenant ns key ↔ segOK key = true ∧ ∃ w i,
      s.data (nsPrefix tenant ns ++ key) = some ⟨.wrapped w, i⟩ ∧ w.expired s.clock = false := by
  rw [Found, get, withKey]
  cases hfk : fullKey tenant ns key with
  | error e =>
    refine iff_of_false ?_ ?_
    · rintro ⟨v, hv⟩
      cases hv
    · rintro ⟨hk, -⟩
      rw [fullKey_eq_ok.mpr ⟨ht, hn, hk, rfl⟩] at hfk
      cases hfk
  | ok fk =>
    obtain ⟨-, -, hk, rfl⟩ := fullKey_eq_ok.mp hfk
    rw [and_iff_right hk]
    dsimp only
    rw [Prog.run]
    cases s.data (nsPrefix tenant ns ++ key) with
    | none =>
      refine iff_of_false ?_ ?_
      · rintro ⟨v, hv⟩
        cases hv
      · rintro ⟨w, i, hdata, -⟩
        cases hdata
    | some pair =>
      obtain ⟨value, i⟩ := pair
      cases value with
      | corrupt text =>
        refine iff_of_false ?_ ?_
        · rintro ⟨v, hv⟩
          cases hv
        · rintro ⟨w, i, hdata, -⟩
          cases hdata
      | wrapped w =>
        dsimp only
        rw [Prog.run]
        by_cases hexp : w.expired s.clock = true
        · rw [if_pos hexp]
          refine iff_of_false ?_ ?_
          · rintro ⟨v, hv⟩
            cases hv
          · rintro ⟨w', i', hdata, hlive⟩
            cases hdata
            rw [hexp] at hlive
            cases hlive
        · rw [if_neg hexp]
          exact iff_of_true ⟨w.v, rfl⟩ ⟨w, i, rfl, eq_false_of_ne_true hexp⟩

def listedAs (s : Store V) (pre k : String) : Option String :=
  ((reply s pre k).bind (entry pre s.clock)).map Prod.fst

theorem listKeys_redis (ht : segOK tenant = true) (hn : segOK ns = true) (scanned : List String) :
    listKeys tenant ns s.clock (redisList s (nsPrefix tenant ns) scanned) =
      .ok (scanned.filterMap (listedAs s (nsPrefix tenant ns))) := by
  rw [listKeys, listAll, ht, hn, if_neg (by decide), if_neg (by decide), redisList,
    normalize_nsPrefix ht,
    mget, List.filterMap_filterMap]
  refine congrArg Except.ok ?_
  rw [List.map_filterMap]
  rfl

theorem entry_iff {p : Pair V} {now : Nat} {v : V} (hk : IsKey k) (ht : segOK tenant = true)
    (hn : segOK ns = true) :
    entry (nsPrefix tenant ns) now (k, p) = some (key, v) ↔
      k = nsPrefix tenant ns ++ key ∧ segOK key = true ∧
        ∃ w i, p = ⟨.wrapped w, i⟩ ∧ w.expired now = false ∧ w.v = v := by
  have htrim : (trimPrefix k (nsPrefix tenant ns) = key ∧ ¬(key = "" ∨ '/' ∈ key.toList)) ↔
      k = nsPrefix tenant ns ++ key ∧ segOK key = true := trimPrefix_iff ht hn hk
  rw [entry]
  dsimp only
  by_cases hout : trimPrefix k (nsPrefix tenant ns) = "" ∨
    '/' ∈ (trimPrefix k (nsPrefix tenant ns)).toList
  · rw [if_pos hout]
    refine iff_of_false (by simp) ?_
    rintro ⟨heq, hseg, -⟩
    obtain ⟨hkey, hnot⟩ := htrim.mpr ⟨heq, hseg⟩
    exact hnot (hkey ▸ hout)
  rw [if_neg hout]
  obtain ⟨value, i⟩ := p
  cases value with
  | corrupt text =>
    refine iff_of_false (by simp) ?_
    rintro ⟨-, -, w, i, h, -⟩
    cases h
  | wrapped w =>
    dsimp only
    by_cases hexp : w.expired now = true
    · rw [if_pos hexp]
      refine iff_of_false (by simp) ?_
      rintro ⟨-, -, w', i', h, hlive, -⟩
      cases h
      rw [hexp] at hlive
      cases hlive
    · rw [if_neg hexp, Option.some.injEq, Prod.mk.injEq]
      constructor
      · rintro ⟨hkey, hv⟩
        obtain ⟨heq, hseg⟩ := htrim.mp ⟨hkey, hkey ▸ hout⟩
        exact ⟨heq, hseg, w, i, rfl, eq_false_of_ne_true hexp, hv⟩
      · rintro ⟨heq, hseg, w', i', h, -, hv⟩
        cases h
        exact ⟨(htrim.mpr ⟨heq, hseg⟩).1, hv⟩

theorem listedAs_iff (hs : KeysOk s) (ht : segOK tenant = true) (hn : segOK ns = true) :
    listedAs s (nsPrefix tenant ns) k = some key ↔
      k = nsPrefix tenant ns ++ key ∧ Found be s tenant ns key := by
  rw [found_iff ht hn, listedAs, reply, Option.map_eq_some_iff]
  cases hdata : s.data k with
  | none =>
    refine iff_of_false (by simp) ?_
    rintro ⟨rfl, -, w, i, h, -⟩
    rw [hdata] at h
    cases h
  | some p =>
    have hk : IsKey k := hs k (by rw [hdata]; rfl)
    dsimp only
    constructor
    · rintro ⟨⟨key', v⟩, hentry, rfl⟩
      split at hentry
      · cases hentry
      obtain ⟨heq, hseg, w, i, hp, hlive, -⟩ := (entry_iff hk ht hn).mp hentry
      exact ⟨heq, hseg, w, i, heq ▸ hdata.trans (congrArg some hp), hlive⟩
    · rintro ⟨rfl, hseg, w, i, h, hlive⟩
      rw [hdata] at h
      cases h
      have hgate : ¬ ((Blob.wrapped w).isEmpty || nsPrefix tenant ns ++ key == nsPrefix tenant ns) =
        true := by
        intro hself
        have hself := congrArg String.toList (beq_iff_eq.mp hself)
        rw [String.toList_append, List.append_right_eq_self] at hself
        exact segOK_ne_empty hseg (String.toList_eq_nil_iff.mp hself)
      rw [if_neg hgate]
      exact ⟨(key, w.v), (entry_iff hk ht hn).mpr ⟨rfl, hseg, w, i, rfl, hlive, rfl⟩, rfl⟩

theorem count_filterMap {γ δ : Type} [DecidableEq γ] [DecidableEq δ] {f : γ → Option δ} {g : δ → γ}
    {P : δ → Prop} (hf : ∀ c d, f c = some d ↔ c = g d ∧ P d) (l : List γ) {d : δ} (hd : P d) :
    (l.filterMap f).count d = l.count (g d) := by
  induction l with
  | nil => rfl
  | cons c l ih =>
    rw [List.filterMap_cons, List.count_cons]
    by_cases hc : c = g d
    · rw [(hf c d).mpr ⟨hc, hd⟩]
      dsimp only
      rw [List.count_cons_self, ih, hc, beq_self_eq_true, if_pos rfl]
    · rw [if_neg (fun h => hc (beq_iff_eq.mp h)), Nat.add_zero, ← ih]
      cases hfc : f c with
      | none => rfl
      | some d' =>
        dsimp only
        refine List.count_cons_of_ne fun heq => hc ?_
        rw [heq] at hfc
        exact ((hf c d).mp hfc).1

/-- The listing of the namespace holds the keys that `Get` finds, and each once. -/
def ListsExactly (be : Backend V) (s : Store V) (tenant ns : String) (scanned : List String) :
    Prop :=
  ∃ keys, listKeys tenant ns s.clock (redisList s (nsPrefix tenant ns) scanned) = .ok keys ∧
    (∀ key, key ∈ keys ↔ Found be s tenant ns key) ∧ keys.Nodup

/-- What the listing of a namespace scans for. -/
def nsPattern (tenant ns : String) : String :=
  scanPattern (normalize (nsPrefix tenant ns))

/-- The listing is exact just when the prefix, read as a pattern, matches the keys that have a
value, and the scan reports none of them again. -/
theorem listsExactly_iff (hs : Reached cfg be s) (ht : segOK tenant = true) (hn : segOK ns = true)
    {scanned : List String} (hscan : Scans s (nsPattern tenant ns) scanned) :
    ListsExactly be s tenant ns scanned ↔ ∀ key, Found be s tenant ns key →
      Lib.Glob.glob (bytes (nsPattern tenant ns)) (bytes (nsPrefix tenant ns ++ key)) = true ∧
        scanned.count (nsPrefix tenant ns ++ key) ≤ 1 := by
  have hlisted : ∀ k key, listedAs s (nsPrefix tenant ns) k = some key ↔
      k = nsPrefix tenant ns ++ key ∧ Found be s tenant ns key :=
    fun k key => listedAs_iff hs.keysOk ht hn
  have hmem : ∀ key, key ∈ scanned.filterMap (listedAs s (nsPrefix tenant ns)) ↔
      nsPrefix tenant ns ++ key ∈ scanned ∧ Found be s tenant ns key := by
    intro key
    rw [List.mem_filterMap]
    constructor
    · rintro ⟨k, hk, hkey⟩
      obtain ⟨rfl, hfound⟩ := (hlisted k key).mp hkey
      exact ⟨hk, hfound⟩
    · rintro ⟨hk, hfound⟩
      exact ⟨_, hk, (hlisted _ key).mpr ⟨rfl, hfound⟩⟩
  have hstored : ∀ key, Found be s tenant ns key → (nsPrefix tenant ns ++ key ∈ scanned ↔
      Lib.Glob.glob (bytes (nsPattern tenant ns)) (bytes (nsPrefix tenant ns ++ key)) = true) := by
    intro key hfound
    obtain ⟨-, w, i, hdata, -⟩ := (found_iff ht hn).mp hfound
    rw [hscan, hdata]
    exact and_iff_right rfl
  rw [ListsExactly]
  constructor
  · rintro ⟨keys, hkeys, hexact, hnodup⟩ key hfound
    rw [listKeys_redis ht hn, Except.ok.injEq] at hkeys
    subst hkeys
    refine ⟨(hstored key hfound).mp ((hmem key).mp ((hexact key).mpr hfound)).1, ?_⟩
    rw [← count_filterMap hlisted scanned hfound]
    exact List.nodup_iff_count_le_one.mp hnodup key
  · intro h
    refine ⟨_, listKeys_redis ht hn scanned, fun key =>
      ?_, List.nodup_iff_count_le_one.mpr fun key => ?_⟩
    · rw [hmem]
      exact and_iff_right_of_imp fun hfound => (hstored key hfound).mpr (h key hfound).1
    · by_cases hin : key ∈ scanned.filterMap (listedAs s (nsPrefix tenant ns))
      · have hfound := ((hmem key).mp hin).2
        rw [count_filterMap hlisted scanned hfound]
        exact (h key hfound).2
      · rw [List.count_eq_zero_of_not_mem hin]
        exact Nat.zero_le 1

end Exact

section Plain

variable {tenant ns key : String}

theorem mem_utf8EncodeChar {c : Char} {b : UInt8} (hb : b.toNat < 128)
    (h : b ∈ String.utf8EncodeChar c) : b.toNat = c.toNat := by
  have hbig : ∀ n : Nat, 128 ≤ n → n < 256 → b ≠ UInt8.ofNat n := by
    rintro n hlow hhigh rfl
    rw [UInt8.toNat_ofNat'] at hb
    omega
  rw [String.utf8EncodeChar] at h
  split at h
  · next hv =>
    rw [List.mem_singleton.mp h, UInt8.toNat_ofNat']
    exact Nat.mod_eq_of_lt (by omega)
  split at h
  · simp only [List.mem_cons, List.not_mem_nil, or_false] at h
    rcases h with h | h
    · exact absurd h (hbig _ (by omega) (by omega))
    · exact absurd h (hbig _ (by omega) (by omega))
  split at h
  · simp only [List.mem_cons, List.not_mem_nil, or_false] at h
    rcases h with h | h | h
    · exact absurd h (hbig _ (by omega) (by omega))
    · exact absurd h (hbig _ (by omega) (by omega))
    · exact absurd h (hbig _ (by omega) (by omega))
  · simp only [List.mem_cons, List.not_mem_nil, or_false] at h
    rcases h with h | h | h | h
    · exact absurd h (hbig _ (by omega) (by omega))
    · exact absurd h (hbig _ (by omega) (by omega))
    · exact absurd h (hbig _ (by omega) (by omega))
    · exact absurd h (hbig _ (by omega) (by omega))

theorem not_mem_bytes {s : String} {c : Char} {b : UInt8} (hb : b.toNat = c.toNat)
    (hc : c.toNat < 128) (h : c ∉ s.toList) : b ∉ bytes s := by
  intro hmem
  obtain ⟨d, hd, hbd⟩ := List.mem_flatMap.mp hmem
  have hdc : d = c := Char.toNat_inj.mp ((mem_utf8EncodeChar (hb ▸ hc) hbd).symm.trans hb)
  exact h (hdc ▸ hd)

theorem bytes_append (s t : String) : bytes (s ++ t) = bytes s ++ bytes t := by
  rw [bytes, String.toList_append, List.flatMap_append, bytes, bytes]

theorem glob_nsPattern (ht : segOK tenant = true) (hopen : '[' ∉ (nsPrefix tenant ns).toList)
    (hescape : '\\' ∉ (nsPrefix tenant ns).toList) (key : String) :
    Lib.Glob.glob (bytes (nsPattern tenant ns)) (bytes (nsPrefix tenant ns ++ key)) = true := by
  rw [nsPattern, normalize_nsPrefix ht, scanPattern, bytes_append, bytes_append]
  exact Lib.Glob.glob_self_append (not_mem_bytes (c := '[') rfl (by decide) hopen)
    (not_mem_bytes (c := '\\') rfl (by decide) hescape) (bytes key)

/-- One value is set in a namespace. -/
def oneValue (ns : String) : Store String :=
  ((code unlimited redis (.set "acme" ns "k" "1" 0)).run redis ⟨fun _ => none, 0, 0, []⟩).1

theorem oneValue_data {ns k : String}
    (hns : fullKey "acme" ns "k" = .ok (nsPrefix "acme" ns ++ "k")) :
    (oneValue ns).data k = if k = nsPrefix "acme" ns ++ "k" then some ⟨.wrapped ⟨"1", 0⟩, 1⟩
      else none := by
  rw [oneValue, code, set, withKey, hns]
  by_cases h : k = nsPrefix "acme" ns ++ "k"
  · rw [if_pos h, h]
    exact Function.update_self _ _ _
  · rw [if_neg h]
    exact Function.update_of_ne h _ _

theorem scans_oneValue {ns : String} (hns : fullKey "acme" ns "k" = .ok (nsPrefix "acme" ns ++ "k"))
    {scanned : List String} (hsub : ∀ k ∈ scanned, k = nsPrefix "acme" ns ++ "k")
    (hmem : nsPrefix "acme" ns ++ "k" ∈ scanned ↔
      Lib.Glob.glob (bytes (nsPattern "acme" ns)) (bytes (nsPrefix "acme" ns ++ "k")) = true) :
    Scans (oneValue ns) (nsPattern "acme" ns) scanned := by
  intro k
  rw [oneValue_data hns]
  by_cases h : k = nsPrefix "acme" ns ++ "k"
  · rw [if_pos h, h, hmem]
    exact (and_iff_right rfl).symm
  · rw [if_neg h]
    exact iff_of_false (fun hk => h (hsub k hk)) fun hk => by cases hk.1

/-- The pattern made of `a[b]` matches no key of that namespace: a value that was set there is not
listed. -/
theorem not_listsExactly_class :
    segOK "acme" = true ∧ segOK "a[b]" = true ∧ Reached unlimited redis (oneValue "a[b]") ∧
      Scans (oneValue "a[b]") (nsPattern "acme" "a[b]") [] ∧
      ¬ ListsExactly redis (oneValue "a[b]") "acme" "a[b]" [] := by
  refine ⟨by decide +kernel, by decide +kernel, .call (.start 0) _,
    scans_oneValue (by decide +kernel)
    (fun k hk => (List.not_mem_nil hk).elim) (by decide +kernel), ?_⟩
  rintro ⟨keys, hkeys, hexact, -⟩
  have hempty : listKeys "acme" "a[b]" (oneValue "a[b]").clock
      (redisList (oneValue "a[b]") (nsPrefix "acme" "a[b]") []) = .ok [] := by
    decide +kernel
  rw [hempty, Except.ok.injEq] at hkeys
  subst hkeys
  have hfound : Found redis (oneValue "a[b]") "acme" "a[b]" "k" := ⟨"1", by decide +kernel⟩
  exact List.not_mem_nil ((hexact "k").mpr hfound)

theorem listsExactly_star :
    ListsExactly redis (oneValue "a*") "acme" "a*" ["acme/a*/k"] := by
  have hreached : Reached unlimited redis (oneValue "a*") := .call (.start 0) _
  refine (listsExactly_iff hreached (by decide +kernel) (by decide +kernel)
    (scans_oneValue (by decide +kernel) (by decide +kernel) (by decide +kernel))).mpr
      fun key hfound => ?_
  refine ⟨glob_nsPattern (by decide +kernel) (by decide +kernel) (by decide +kernel) key, ?_⟩
  exact List.nodup_iff_count_le_one.mp (List.nodup_singleton _) _

end Plain

end ThanksComputer.Kv

import ThanksComputer.Kv.Calls

/-! What every call keeps to, from one operation to the next. -/

namespace ThanksComputer.Kv

variable {V α β γ : Type} {be : Backend V} {cfg : Config V} {t : Nat}
  {seen : Option (String × Option (Pair V))}

section Rules

/-- A `CAS` or an `Incr` that went through. -/
def succeeds : Answer V → Bool
  | .swapped yes _ => yes
  | .counter _ => true
  | _ => false

/-- A key that `fullKey` makes. -/
def Full (k : String) : Prop :=
  ∃ tenant ns key, fullKey tenant ns key = .ok k

/-- What a call does from `t` on that has `seen` under a key last.  It writes under full keys, an
`AtomicPut` is over what it read last, and only one that goes through ends in success.  On its own
it deletes what has expired. -/
def Keeps : Nat → Option (String × Option (Pair V)) → Run V → Prop
  | _, _, .pure a => succeeds a = false
  | t, seen, .now next => ∀ t', Keeps (max t t') seen (next t')
  | t, _, .get key next => ∀ p, Keeps t (some (key, p)) (next p)
  | t, seen, .getMulti _ next => ∀ ps, Keeps t seen (next ps)
  | t, _, .put key _ next => Full key ∧ ∀ seen, Keeps t seen next
  | t, _, .putMulti kws next => (∀ kw ∈ kws, Full kw.1) ∧ ∀ seen, Keeps t seen next
  | t, seen, .atomicPut key _ prev next =>
    Full key ∧ seen = some (key, prev) ∧ (∃ a, next none = .pure a) ∧
      ∀ e, Keeps t seen (next (some e))
  | t, _, .delete _ next | t, _, .deleteMulti _ next => ∀ seen, Keeps t seen next
  | t, _, .collect _ pair next => pair.value.expired t = true ∧ ∀ seen, Keeps t seen next

end Rules

section Time

theorem Wrapper.expired_mono {w : Wrapper V} {t t' : Nat} (h : w.expired t = true) (ht : t ≤ t') :
    w.expired t' = true := by
  simp only [Wrapper.expired, Bool.and_eq_true, decide_eq_true_eq] at h ⊢
  exact ⟨h.1, Nat.le_trans h.2 (Nat.div_le_div_right ht)⟩

theorem Blob.expired_mono {b : Blob V} {t t' : Nat} (h : b.expired t = true) (ht : t ≤ t') :
    b.expired t' = true := by
  cases b with
  | corrupt text => cases h
  | wrapped w => exact w.expired_mono h ht

end Time

section Calls

theorem Prog.bind_assoc (p : Prog V α) (f : α → Prog V β) (g : β → Prog V γ) :
    (p.bind f).bind g = p.bind fun a => (f a).bind g := by
  induction p with
  | pure a => rfl
  | now next ih | get key next ih | getMulti keys next ih | put key w next ih
  | putMulti kws next ih | atomicPut key w prev next ih | delete key next ih
  | deleteMulti keys next ih | collect key seen next ih =>
    simp only [Prog.bind, ih]

theorem keeps_withKey {tenant ns key : String} {go : String → Run V}
    (h : ∀ fk, Full fk → Keeps t seen (go fk)) : Keeps t seen (withKey tenant ns key go) := by
  rw [withKey]
  split
  · rfl
  · next fk hfk => exact h fk ⟨tenant, ns, key, hfk⟩

theorem keeps_encode {value : V} {ttl : Int} {g : Wrapper V → Run V}
    (h : ∀ w t', t ≤ t' → Keeps t' seen (g w)) :
    Keeps t seen ((encode cfg value ttl).bind g) := by
  rw [encode]
  split
  · exact fun u => h _ (max t u) (Nat.le_max_left t u)
  · exact h _ t (Nat.le_refl t)

theorem keeps_live {pair : Option (Pair V)} {g : Option V → Run V}
    (h : ∀ cur t', t ≤ t' → Keeps t' seen (g cur)) : Keeps t seen ((live pair).bind g) := by
  rcases pair with _ | ⟨_ | w, i⟩
  · exact h _ t (Nat.le_refl t)
  · exact h _ t (Nat.le_refl t)
  · exact fun u => h _ (max t u) (Nat.le_max_left t u)

theorem keeps_collect {fk : String} {pair : Pair V} {w : Wrapper V} {next found : Run V}
    (hw : pair.value = .wrapped w) (hnext : ∀ t' seen, t ≤ t' → Keeps t' seen next)
    (hfound : ∀ t', t ≤ t' → Keeps t' seen found) :
    Keeps t seen (.now fun u => if w.expired u then .collect fk pair next else found) := by
  intro u
  have hle := Nat.le_max_left t u
  dsimp only
  split
  · next hexp =>
    refine ⟨?_, fun seen => hnext _ seen hle⟩
    rw [hw]
    exact w.expired_mono hexp (Nat.le_max_right t u)
  · exact hfound _ hle

theorem keeps_get (tenant ns key : String) : Keeps t seen (get tenant ns key : Run V) := by
  refine keeps_withKey fun fk _ p => ?_
  rcases p with _ | ⟨_ | w, i⟩
  · rfl
  · rfl
  · exact keeps_collect rfl (fun _ _ _ => rfl) fun _ _ => rfl

theorem keeps_readEach {g : List (Option (Pair V)) → Run V} (h : ∀ ps seen, Keeps t seen (g ps))
    (fks : List String) : Keeps t seen ((readEach fks).bind g) := by
  induction fks generalizing seen g with
  | nil => exact h [] seen
  | cons fk fks ih =>
    intro p
    dsimp only
    rw [Prog.bind_assoc]
    exact ih fun ps seen => h (p :: ps) seen

theorem keeps_getEach (pairs : List ((Ref × String) × Option (Pair V))) (hits : List (Option V)) :
    Keeps t seen (getEach pairs hits) := by
  induction pairs generalizing t hits seen with
  | nil => rfl
  | cons x pairs ih =>
    rcases x with ⟨⟨r, fk⟩, _ | ⟨_ | w, i⟩⟩
    · exact ih _
    · rfl
    · exact keeps_collect rfl (fun _ _ _ => ih _) fun _ _ => ih _

theorem keeps_getMany (tenant : String) (refs : List Ref) :
    Keeps t seen (getMany be tenant refs : Run V) := by
  rw [getMany]
  split
  · rfl
  split
  · rfl
  split
  · rfl
  rw [readMany]
  split
  · exact fun ps => keeps_getEach _ _
  · exact keeps_readEach (fun ps seen => keeps_getEach _ _) _

theorem keeps_set (tenant ns key : String) (value : V) (ttl : Int) :
    Keeps t seen (set cfg tenant ns key value ttl) := by
  refine keeps_withKey fun fk hfk => ?_
  split
  · rfl
  · exact keeps_encode fun w t' _ => ⟨hfk, fun seen => rfl⟩

theorem keeps_gather {tenant : String} (writes : List (Write V))
    {g : Except Error (List (String × Wrapper V)) → Run V}
    (h : ∀ r t', t ≤ t' → (∀ out, r = .ok out → ∀ kw ∈ out, Full kw.1) → Keeps t' seen (g r))
    {kws : List (String × Wrapper V)} (hkws : ∀ kw ∈ kws, Full kw.1) :
    Keeps t seen ((gather cfg tenant writes kws).bind g) := by
  have herror : ∀ e, Keeps t seen (g (.error e)) := fun e =>
    h _ t (Nat.le_refl t) fun out hout => by cases hout
  induction writes generalizing t kws with
  | nil =>
    apply h _ t (Nat.le_refl t)
    intro out hout kw hkw
    cases hout
    exact hkws kw (List.mem_reverse.mp hkw)
  | cons x xs ih =>
    rw [gather]
    split
    · exact herror _
    next fk hfk =>
    split
    · exact herror _
    split
    · exact herror _
    rw [Prog.bind_assoc]
    refine keeps_encode fun w t' ht' => ih ?_ ?_ ?_
    · exact fun r u hu => h r u (Nat.le_trans ht' hu)
    · exact List.forall_mem_cons.mpr ⟨⟨tenant, _, _, hfk⟩, hkws⟩
    · exact fun e => h _ t' ht' fun out hout => by cases hout

theorem keeps_setMany (tenant : String) (writes : List (Write V)) :
    Keeps t seen (setMany cfg be tenant writes) := by
  rw [setMany]
  split
  · rfl
  split
  · rfl
  refine keeps_gather writes (fun r t' _ hr => ?_) fun _ hkw => absurd hkw List.not_mem_nil
  rcases r with e | _ | ⟨kw, kws⟩
  · rfl
  · rfl
  · exact ⟨hr _ rfl, fun seen => rfl⟩

theorem keeps_deleteMany (tenant : String) (refs : List Ref) :
    Keeps t seen (deleteMany be tenant refs : Run V) := by
  rw [deleteMany]
  split
  · rfl
  split
  · rfl
  split
  · rfl
  · rfl
  · exact fun seen => rfl

theorem keeps_incrPut {fk : String} (hfk : Full fk) {cur delta ttl : Int} {prev : Option (Pair V)}
    {again : Run V} (h : ∀ t', t ≤ t' → Keeps t' (some (fk, prev)) again) :
    Keeps t (some (fk, prev)) (incrPut cfg fk cur delta ttl prev again) := by
  refine keeps_encode fun w t' ht' => ⟨hfk, rfl, ⟨_, rfl⟩, fun e => ?_⟩
  dsimp only
  split
  · exact h t' ht'
  · rfl

theorem keeps_incrLoop (key : String) {fk : String} (hfk : Full fk) (delta ttl : Int) (n : Nat) :
    Keeps t seen (incrLoop cfg key fk delta ttl n) := by
  induction n generalizing t seen with
  | zero => rfl
  | succ n ih =>
    rintro (_ | ⟨_ | w, i⟩)
    · exact keeps_incrPut hfk fun _ _ => ih
    · rfl
    · intro u
      dsimp only
      split
      · exact keeps_incrPut hfk fun _ _ => ih
      split
      · rfl
      · exact keeps_incrPut hfk fun _ _ => ih

theorem keeps_casLoop (key : String) {fk : String} (hfk : Full fk) (expected : Option V)
    (newVal : V) (ttl : Int) (n : Nat) :
    Keeps t seen (casLoop cfg key fk expected newVal ttl n) := by
  induction n generalizing t seen with
  | zero => rfl
  | succ n ih =>
    intro pair
    refine keeps_live fun cur _ _ => ?_
    split
    · refine keeps_encode fun w _ _ => ⟨hfk, rfl, ⟨_, rfl⟩, fun e => ?_⟩
      dsimp only
      split
      · exact ih
      · rfl
    · rfl

theorem keeps_cas (tenant ns key : String) (expected : Option V) (newVal : V) (ttl : Int) :
    Keeps t seen (cas cfg tenant ns key expected newVal ttl) := by
  refine keeps_withKey fun fk hfk => ?_
  split
  · rfl
  split
  · rfl
  · exact keeps_casLoop key hfk expected newVal ttl casAttempts

theorem keeps_code (t : Nat) (call : Call V) : Keeps t none (code cfg be call) := by
  cases call with
  | get tenant ns key => exact keeps_get tenant ns key
  | getMany tenant refs => exact keeps_getMany tenant refs
  | set tenant ns key value ttl => exact keeps_set tenant ns key value ttl
  | setMany tenant writes => exact keeps_setMany tenant writes
  | cas tenant ns key expected newVal ttl => exact keeps_cas tenant ns key expected newVal ttl
  | incr tenant ns key delta ttl =>
    exact keeps_withKey fun fk hfk => keeps_incrLoop key hfk delta ttl casAttempts
  | delete tenant ns key => exact keeps_withKey fun fk _ seen => rfl
  | deleteMany tenant refs => exact keeps_deleteMany tenant refs

end Calls

end ThanksComputer.Kv

import ThanksComputer.Ops.Index

/-! The table of a tenant in a snapshot.  The lookup by SQL finds the rules that the lookup in the
table does. -/

namespace ThanksComputer.Ops.Index

open Lib.Layers

variable {db : Snapshot} {tenant : Slug} {stack : StageText}

section Rules

/-- A row as a rule, if its scope is one that a stage can name. -/
def OpRow.rule (r : OpRow) : Option Row :=
  if h : 0 ≤ r.scope ∧ r.scope.toNat ≤ maxInt then
    some ⟨segments r.stack, r.scope.toNat, r.name, r.txcl, h.2⟩
  else none

def Snapshot.table (db : Snapshot) (tenant : Slug) : List Row :=
  (db.ops.filter (tenantPredicate db tenant)).filterMap OpRow.rule

/-- The scopes are Go `int`s. -/
def Ints (rows : List OpRow) : Prop :=
  ∀ r ∈ rows, r.scope ≤ maxInt

theorem rule_eq_some {r : OpRow} {q : Row} (h : r.rule = some q) :
    q.stack = segments r.stack ∧ (q.scope : Int) = r.scope := by
  rw [OpRow.rule] at h
  split at h
  · next hscope =>
    cases h
    exact ⟨rfl, Int.toNat_of_nonneg hscope.1⟩
  · cases h

theorem exists_rule {r : OpRow} (hlow : 0 ≤ r.scope) (hhigh : r.scope ≤ maxInt) :
    ∃ q, r.rule = some q := by
  rw [OpRow.rule, dif_pos ⟨hlow, by omega⟩]
  exact ⟨_, rfl⟩

theorem mem_rules {rows : List OpRow} (hints : Ints rows) {x : Nat} :
    x ∈ (rows.filterMap OpRow.rule).map Row.scope ↔ (x : Int) ∈ rows.map OpRow.scope := by
  simp only [List.mem_map, List.mem_filterMap]
  constructor
  · rintro ⟨q, ⟨r, hr, hq⟩, rfl⟩
    exact ⟨r, hr, (rule_eq_some hq).2.symm⟩
  · rintro ⟨r, hr, hx⟩
    obtain ⟨q, hq⟩ := exists_rule (by omega) (hints r hr)
    refine ⟨q, ⟨r, hr, hq⟩, ?_⟩
    have hscope := (rule_eq_some hq).2
    omega

end Rules

section Floor

theorem minScope_rules {rows : List OpRow} (hints : Ints rows) (floor : Nat) :
    minScope rows floor =
      (lowest ((rows.filterMap OpRow.rule).map Row.scope) floor).map Int.ofNat := by
  cases hlow : lowest ((rows.filterMap OpRow.rule).map Row.scope) floor with
  | some x =>
    obtain ⟨hmem, hle, hmin⟩ := lowest_eq_some.mp hlow
    rw [minScope, Option.map_some, List.min?_eq_some_iff]
    simp only [List.mem_filter, decide_eq_true_eq]
    refine ⟨⟨(mem_rules hints).mp hmem, by simpa using hle⟩, fun y hy => ?_⟩
    obtain ⟨n, rfl⟩ := Int.eq_ofNat_of_zero_le (Int.le_trans (Int.natCast_nonneg floor) hy.2)
    simpa using hmin n ((mem_rules hints).mpr hy.1) (by simpa using hy.2)
  | none =>
    rw [minScope, Option.map_none, List.min?_eq_none_iff, List.filter_eq_nil_iff]
    intro y hy hle
    rw [decide_eq_true_eq] at hle
    obtain ⟨n, rfl⟩ := Int.eq_ofNat_of_zero_le (Int.le_trans (Int.natCast_nonneg floor) hle)
    have hlt := lowest_eq_none.mp hlow n ((mem_rules hints).mpr hy)
    omega

theorem rowsAtScope_rules (rows : List OpRow) (x : Nat) :
    (rowsAtScope rows x).filterMap OpRow.rule =
      (rows.filterMap OpRow.rule).filter fun q => q.scope == x := by
  rw [rowsAtScope, List.filterMap_filter, List.filter_filterMap]
  refine List.filterMap_congr fun r _ => ?_
  cases hrule : r.rule with
  | none => simp
  | some q =>
    rw [← (rule_eq_some hrule).2]
    by_cases hx : q.scope = x
    · simp [hx, Option.filter]
    · have hne : ¬(q.scope : Int) = x := fun heq => hx (Int.ofNat_inj.mp heq)
      simp [hx, hne, Option.filter]

theorem floorOps_rules {rows : List OpRow} (hints : Ints rows) (floor : Nat) :
    (floorOps rows floor).filterMap OpRow.rule = floorRows (rows.filterMap OpRow.rule) floor := by
  rw [floorOps, floorRows, minScope_rules hints]
  cases lowest ((rows.filterMap OpRow.rule).map Row.scope) floor with
  | none => rfl
  | some x => exact rowsAtScope_rules rows x

theorem floorOps_isEmpty {rows : List OpRow} (hints : Ints rows) (floor : Nat) :
    (floorOps rows floor).isEmpty = (floorRows (rows.filterMap OpRow.rule) floor).isEmpty := by
  rw [← floorOps_rules hints, Bool.eq_iff_iff, List.isEmpty_iff, List.isEmpty_iff,
    List.filterMap_eq_nil_iff]
  refine ⟨fun h => by simp [h], fun h => List.eq_nil_iff_forall_not_mem.mpr fun r hr => ?_⟩
  have hnone := h r hr
  rw [floorOps] at hr
  split at hr
  · next x hx =>
    obtain ⟨hr, hscope⟩ := List.mem_filter.mp hr
    rw [beq_iff_eq] at hscope
    rw [minScope, List.min?_eq_some_iff] at hx
    have hle := of_decide_eq_true (List.mem_filter.mp hx.1).2
    obtain ⟨q, hq⟩ := exists_rule (by omega) (hints r hr)
    rw [hnone] at hq
    cases hq
  · cases hr

end Floor

section Names

theorem likeEscape_eq (p text : List Char) :
    likeEscape (escapeLikeLiterals p) text = likeText p text := by
  induction p generalizing text with
  | nil => rfl
  | cons c p ih =>
    have hcons : escapeLikeLiterals (c :: p) = escapeLikeLiterals [c] ++ escapeLikeLiterals p := by
      simp [escapeLikeLiterals]
    rw [hcons]
    by_cases hback : c = '\\'
    · subst hback
      cases text with
      | nil => rfl
      | cons d text =>
        change (_ && likeEscape (escapeLikeLiterals p) text) = _
        rw [ih]
        rfl
    by_cases hunder : c = '_'
    · subst hunder
      cases text with
      | nil => rfl
      | cons d text =>
        change (_ && likeEscape (escapeLikeLiterals p) text) = _
        rw [ih]
        rfl
    have hself : escapeLikeLiterals [c] = [c] := by simp [escapeLikeLiterals, hback, hunder]
    rw [hself, List.singleton_append]
    by_cases hpercent : c = '%'
    · subst hpercent
      cases text with
      | nil => simp [likeEscape, likeText, funext ih]
      | cons d text => simp [likeEscape, likeText, funext ih]
    · cases text with
      | nil => simp [likeEscape, likeText, hback, hpercent]
      | cons d text => simp [likeEscape, likeText, hback, beq_false_of_ne hunder, hpercent, ih]

theorem likeText_eq {p : List Char} (h : '%' ∉ p) (text : List Char) :
    likeText p text = (text.map Char.toLower == p.map Char.toLower) := by
  induction p generalizing text with
  | nil => cases text <;> rfl
  | cons c p ih =>
    rw [List.mem_cons, not_or] at h
    cases text with
    | nil => simp [likeText, Ne.symm h.1]
    | cons d text =>
      rw [likeText, if_neg (Ne.symm h.1), ih h.2, List.map_cons, List.map_cons, List.cons_beq_cons,
        Bool.beq_comm (a := c.toLower)]

theorem splitOn_map_toLower (text : List Char) :
    (text.map Char.toLower).splitOn '/' = (text.splitOn '/').map (List.map Char.toLower) := by
  induction text with
  | nil => rfl
  | cons c text ih =>
    have hslash : (c.toLower == '/') = (c == '/') := by
      rw [Bool.eq_iff_iff, beq_iff_eq, beq_iff_eq]
      exact Lib.toLower_eq_iff (by decide)
    rw [List.map_cons, List.splitOn_cons_eq_if_modifyHead, List.splitOn_cons_eq_if_modifyHead, ih,
      hslash]
    split
    · rfl
    · cases text.splitOn '/' <;> rfl

theorem foldCase_segments (text : StageText) :
    foldCase (segments text) = segments (text.map Char.toLower) := by
  rw [foldCase, segments, segments, splitOn_map_toLower, List.map_reverse]

theorem like_segments {stack : StageText} (h : '%' ∉ stack) (text : StageText) :
    like (segments text) (segments stack) = likeText stack text := by
  rw [likeText_eq h, like, foldCase_segments, foldCase_segments, Bool.eq_iff_iff, beq_iff_eq,
    beq_iff_eq]
  exact ⟨fun heq => by rw [← stackText_segments (text.map _), heq, stackText_segments],
    congrArg segments⟩

theorem matching_rules (db : Snapshot) (tenant : Slug) (stack : StageText) :
    (matching db tenant stack).filterMap OpRow.rule =
      (db.table tenant).filter fun q => likeText stack (stackText q.stack) := by
  have hmatching : matching db tenant stack =
      (db.ops.filter (tenantPredicate db tenant)).filter fun r => likeText stack r.stack := by
    rw [matching, List.filter_filter]
    exact List.filter_congr fun r _ => by rw [likeEscape_eq]
  rw [hmatching, Snapshot.table, List.filterMap_filter, List.filter_filterMap]
  refine List.filterMap_congr fun r _ => ?_
  cases hrule : r.rule with
  | none => simp
  | some q =>
    rw [← stackText_segments r.stack, ← (rule_eq_some hrule).1]
    rfl

theorem matching_rowsOf (hstack : '%' ∉ stack) :
    (matching db tenant stack).filterMap OpRow.rule =
      rowsOf (db.table tenant) (segments stack) := by
  rw [matching_rules, rowsOf]
  refine List.filter_congr fun q hq => ?_
  obtain ⟨r, -, hrule⟩ := List.mem_filterMap.mp hq
  rw [(rule_eq_some hrule).1, stackText_segments, like_segments hstack]

end Names

section Parents

theorem stackParent_cases (stack : StageText) :
    '/' ∉ stack ∧ stackParent stack = none ∨
      ∃ parent last, stack = parent ++ '/' :: last ∧ '/' ∉ last ∧
        stackParent stack = some parent := by
  have hsplit := List.takeWhile_append_dropWhile (p := (· != '/')) (l := stack.reverse)
  have hlast : '/' ∉ stack.reverse.takeWhile (· != '/') := fun hmem => by
    simpa using List.mem_takeWhile_imp hmem
  cases hdrop : stack.reverse.dropWhile (· != '/') with
  | nil =>
    rw [hdrop, List.append_nil] at hsplit
    refine .inl ⟨fun hmem => hlast ?_, by rw [stackParent, hdrop]⟩
    rw [hsplit]
    exact List.mem_reverse.mpr hmem
  | cons c before =>
    have hc : c = '/' := by
      have hhead := List.head?_dropWhile_not (· != '/') stack.reverse
      rw [hdrop] at hhead
      simpa using hhead
    refine .inr ⟨before.reverse, (stack.reverse.takeWhile (· != '/')).reverse, ?_, ?_, ?_⟩
    · have hstack := congrArg List.reverse hsplit
      rw [List.reverse_reverse, hdrop, hc] at hstack
      exact hstack.symm.trans (by simp)
    · exact fun hmem => hlast (List.mem_reverse.mp hmem)
    · rw [stackParent, hdrop]

theorem segments_snoc (parent : StageText) {last : List Char} (hlast : '/' ∉ last) :
    segments (parent ++ '/' :: last) = last :: segments parent := by
  rw [segments, List.splitOn_append_cons_self, List.splitOn_eq_singleton hlast,
    List.reverse_append]
  rfl

theorem exists_segments (stack : StageText) : ∃ seg rest, segments stack = seg :: rest := by
  refine List.exists_cons_of_ne_nil fun hnil => ?_
  rw [segments, List.reverse_eq_nil_iff] at hnil
  exact List.splitOn_ne_nil _ _ hnil

theorem peelParent_segments (stack : StageText) :
    (peelParent stack).map segments = Ops.peelParent (segments stack) := by
  rcases stackParent_cases stack with ⟨hslash, hparent⟩ | ⟨parent, last, rfl, hlast, hparent⟩
  · rw [peelParent, hparent, segments, List.splitOn_eq_singleton hslash]
    rfl
  · obtain ⟨seg, rest, hsegs⟩ := exists_segments parent
    have hdrop : (parent ++ '/' :: last).drop (parent.length + 1) = last := by simp
    rw [peelParent, hparent, segments_snoc parent hlast, hsegs, Ops.peelParent, channel]
    dsimp only
    rw [hdrop]
    by_cases hchannel : last.head? = some '_'
    · simp [hchannel]
    · simp [hchannel, hsegs]

theorem segments_of_peelParent {parent : StageText} (h : peelParent stack = some parent) :
    ∃ seg, stack = parent ++ '/' :: seg ∧ segments stack = seg :: segments parent := by
  rcases stackParent_cases stack with ⟨-, hnone⟩ | ⟨parent', last, rfl, hlast, hsome⟩
  · rw [peelParent, hnone] at h
    cases h
  · rw [peelParent, hsome] at h
    dsimp only at h
    split at h
    · cases h
    · cases h
      exact ⟨last, rfl, segments_snoc parent hlast⟩

end Parents

section Walk

theorem Ints.matching (h : Ints db.ops) (tenant : Slug) (stack : StageText) :
    Ints (matching db tenant stack) :=
  fun r hr => h r (List.mem_filter.mp hr).1

theorem floorOps_matching (h : Ints db.ops) (tenant : Slug) (hstack : '%' ∉ stack) (floor : Nat) :
    (floorOps (matching db tenant stack) floor).filterMap OpRow.rule =
      Ops.lookupOpsExact (db.table tenant) (segments stack) floor := by
  rw [floorOps_rules (h.matching tenant stack), matching_rowsOf hstack, lookupOpsExact_eq]

theorem walk_rules (h : Ints db.ops) (tenant : Slug) (hstack : '%' ∉ stack) (floor : Nat) :
    (walk (fun s => floorOps (matching db tenant s) floor) true stack).filterMap OpRow.rule =
      Ops.opsForStage (db.table tenant) (segments stack) floor := by
  induction hn : stack.length using Nat.strongRecOn generalizing stack with
  | _ n ih =>
    obtain ⟨seg, rest, hsegs⟩ := exists_segments stack
    have hfound := floorOps_matching h tenant hstack floor
    have hempty := floorOps_isEmpty (h.matching tenant stack) floor
    have hpeel := peelParent_segments stack
    rw [matching_rowsOf hstack, ← lookupOpsExact_eq] at hempty
    rw [walk, hsegs, Ops.opsForStage]
    rw [hsegs] at hfound hempty hpeel
    rw [hempty, ← hpeel]
    cases hrows : (Ops.lookupOpsExact (db.table tenant) (seg :: rest) floor).isEmpty with
    | false =>
      rw [if_pos (by rfl), if_neg (by decide)]
      exact hfound
    | true =>
      rw [if_neg (by decide), if_neg (by decide), if_pos rfl]
      split
      · next parent hparent =>
        obtain ⟨seg', heq, hseg'⟩ := segments_of_peelParent hparent
        rw [hsegs, List.cons.injEq] at hseg'
        rw [hparent, hseg'.2]
        refine ih _ (hn ▸ length_peelParent hparent) (fun hmem => hstack ?_) rfl
        exact heq ▸ List.mem_append_left _ hmem
      · next hparent =>
        rw [hparent]
        rfl

theorem walk_false (look : StageText → List OpRow) (stack : StageText) :
    walk look false stack = look stack := by
  rw [walk]
  split
  · rfl
  · next hrows =>
    rw [Bool.not_eq_true, Bool.not_eq_false', List.isEmpty_iff] at hrows
    exact hrows.symm

theorem sqlOps_rules (E : Engine) (h : Ints db.ops) (tenant : Slug) (peels : Bool)
    (stack : StageText) (floor : Nat) :
    ((sqlOps E db peels tenant stack floor).filterMap OpRow.rule).Perm
      (lookupStack (db.table tenant) peels stack floor) := by
  rw [sqlOps]
  change
    ((walk (fun s => E.order (floorOps (matching db tenant s) floor)) _ stack).filterMap _).Perm _
  rw [walk_order]
  refine ((E.perm _).filterMap _).trans (.of_eq ?_)
  rw [lookupStack]
  cases hwild : wildcard stack with
  | true =>
    rw [if_pos rfl, ← matching_rules, ← floorOps_rules (h.matching tenant stack), Bool.not_true,
      Bool.and_false, walk_false]
  | false =>
    have hstack : '%' ∉ stack := by
      rw [wildcard, ← Bool.not_eq_true, List.contains_iff_mem] at hwild
      exact hwild
    cases peels with
    | true => exact walk_rules h tenant hstack floor
    | false =>
      rw [if_neg (by decide), if_neg (by decide), ← floorOps_matching h tenant hstack,
        Bool.false_and, walk_false]

end Walk

end ThanksComputer.Ops.Index

import Mathlib.Data.List.Sort
import ThanksComputer.Drive.Index
import ThanksComputer.Lib.Assoc
import ThanksComputer.Lib.Checks
import ThanksComputer.Net.Text

/-! The links of a collection (drive/links.go): other collections shown at folder paths.  Links are
a map, here the list of its entries in the order of an iteration. -/

namespace ThanksComputer.Drive

open Lib.Assoc
open Lib.Checks (forM_ok)
open Net (textLe textLe_antisymm textLe_append textLe_cons_iff textLe_total textLe_trans
  trimPrefix)

abbrev Links := List (Path × List Char)

inductive LinkError
  | tooMany
  | badPath (link : Path) (reason : DriveError)
  | root (link : Path)
  | respell (link normal : Path)
  | badName (link : Path) (name : List Char)
  | inside (link outer : Path)
  deriving DecidableEq

def maxLinks : Nat := 1000

section Code

def checkLink (nfc : Path → Path) (link : Path) (name : List Char) : Except LinkError Unit :=
  match normalizePath nfc (some link) with
  | .error e => .error (.badPath link e)
  | .ok p =>
    if p = [] then .error (.root link)
    else if p ≠ link then .error (.respell link p)
    else if !validCollectionName name then .error (.badName link name)
    else .ok ()

def checkNeighbours : List Path → Except LinkError Unit
  | p :: q :: paths => if isInside q p then .error (.inside q p) else checkNeighbours (q :: paths)
  | _ => .ok ()

/-- `sort.Strings`. -/
def sortPaths (paths : List Path) : List Path :=
  paths.insertionSort fun a b => textLe a b

def Links.validate (nfc : Path → Path) (l : Links) : Except LinkError Unit := do
  if maxLinks < l.length then throw .tooMany
  l.forM fun link => checkLink nfc link.1 link.2
  checkNeighbours (sortPaths (keys l))

/-- The walk of `Resolve` over the ancestors of a path. -/
def Links.resolveFrom (l : Links) (p q : Path) : Option (Path × List Char × Path) :=
  if _hq : q = [] then none
  else
    match l.lookup q with
    | some name => some (q, name, trimPrefix ['/'] (trimPrefix q p))
    | none => resolveFrom l p (parentOf q)
termination_by q.length
decreasing_by exact length_parentOf_lt _hq

/-- `Resolve`: the link, the name of its collection and the path in there. -/
def Links.resolve (l : Links) (p : Path) : Option (Path × List Char × Path) :=
  if l = [] ∨ p = [] then none else l.resolveFrom p p

end Code

section Spec

def Normalized (nfc : Path → Path) (p : Path) : Prop :=
  normalizePath nfc (some p) = .ok p

def AtOrBelow (p link : Path) : Prop :=
  p = link ∨ isInside p link = true

/-- A path below another, itself when there is nothing to go down. -/
def joinBelow (link inner : Path) : Path :=
  if inner = [] then link else link ++ '/' :: inner

/-- No link is inside another. -/
def Links.Flat (l : Links) : Prop :=
  ∀ a ∈ keys l, ∀ b ∈ keys l, isInside a b = false

/-- Every normalized path is at or below one link at most, and that link is found. -/
def Links.Resolves (nfc : Path → Path) (l : Links) : Prop :=
  ∀ p, Normalized nfc p →
    (∀ a ∈ keys l, ∀ b ∈ keys l, AtOrBelow p a → AtOrBelow p b → a = b) ∧
      (∀ a name, (a, name) ∈ l → AtOrBelow p a → ∃ inner, l.resolve p = some (a, name, inner) ∧
        joinBelow a inner = p) ∧
      ((∀ a ∈ keys l, ¬AtOrBelow p a) → l.resolve p = none)

/-- A link continues another with a byte that comes before the slash, and so may part it from what
is inside it. -/
def Links.Parted (l : Links) : Prop :=
  ∃ p ∈ keys l, (∃ q ∈ keys l, isInside q p = true) ∧
    ∃ x ∈ keys l, ∃ c w, x = p ++ c :: w ∧ c.toNat < '/'.toNat

end Spec

section Order

theorem between_inside {p x y : Path} (hpx : textLe p x = true)
    (hxq : textLe x (p ++ '/' :: y) = true) :
    x = p ∨ ∃ c w, x = p ++ c :: w ∧ (c.toNat < '/'.toNat ∨ c = '/') := by
  induction p generalizing x with
  | nil =>
    cases x with
    | nil => exact .inl rfl
    | cons c w =>
      rw [List.nil_append, textLe_cons_iff] at hxq
      refine .inr ⟨c, w, rfl, ?_⟩
      rcases hxq with hlt | ⟨heq, -⟩
      · exact .inl hlt
      · exact .inr heq
  | cons a p ih =>
    cases x with
    | nil => cases hpx
    | cons b x =>
      rw [textLe_cons_iff] at hpx
      rw [List.cons_append, textLe_cons_iff] at hxq
      obtain ⟨rfl, hpx, hxq⟩ : a = b ∧ textLe p x = true ∧ textLe x (p ++ '/' :: y) = true := by
        rcases hpx with hab | ⟨rfl, hpx⟩
        · rcases hxq with hba | ⟨rfl, -⟩
          · omega
          · omega
        · rcases hxq with hba | ⟨-, hxq⟩
          · omega
          · exact ⟨rfl, hpx, hxq⟩
      rcases ih hpx hxq with rfl | ⟨c, w, rfl, hc⟩
      · exact .inl rfl
      · exact .inr ⟨c, w, rfl, hc⟩

end Order

section Neighbours

variable {nfc : Path → Path} {l : Links} {s : List Path} {p q : Path}

theorem checkNeighbours_ok {pre rest : List Path} {x : Path}
    (h : checkNeighbours (pre ++ p :: x :: rest) = .ok ()) : isInside x p = false := by
  induction pre with
  | nil =>
    rw [List.nil_append, checkNeighbours] at h
    split at h
    · cases h
    · next hx => exact Bool.not_eq_true _ ▸ hx
  | cons a pre ih =>
    cases pre with
    | nil =>
      rw [List.singleton_append, checkNeighbours] at h
      split at h
      · cases h
      · exact ih h
    | cons b pre =>
      rw [List.cons_append, List.cons_append, checkNeighbours] at h
      split at h
      · cases h
      · exact ih h

/-- In a sorted list without nested neighbours, a nested pair has a path between that continues the
outer one with a byte before the slash. -/
theorem parted_of_inside (hsorted : s.Pairwise fun a b => textLe a b = true) (hnodup : s.Nodup)
    (hok : checkNeighbours s = .ok ()) (hp : p ∈ s) (hne : p ≠ []) (hq : q ∈ s)
    (hin : isInside q p = true) :
    ∃ x ∈ s, ∃ c w, x = p ++ c :: w ∧ c.toNat < '/'.toNat := by
  obtain ⟨y, rfl⟩ := (isInside_iff hne).mp hin
  obtain ⟨pre, suf, rfl⟩ := List.append_of_mem hp
  have hpq : p ≠ p ++ '/' :: y := by simp
  rw [List.pairwise_append, List.pairwise_cons] at hsorted
  obtain ⟨-, ⟨hafter, hsuf⟩, hbefore⟩ := hsorted
  have hqsuf : p ++ '/' :: y ∈ suf := by
    rcases List.mem_append.mp hq with hpre | hmem
    · have hle := hbefore _ hpre p List.mem_cons_self
      exact absurd (textLe_antisymm (textLe_append p _) hle) hpq
    · rcases List.mem_cons.mp hmem with heq | hmem
      · exact absurd heq.symm hpq
      · exact hmem
  cases suf with
  | nil => cases hqsuf
  | cons x suf =>
    have hxq : textLe x (p ++ '/' :: y) = true := by
      rcases List.mem_cons.mp hqsuf with heq | hmem
      · rw [heq]
        simpa using textLe_append x []
      · exact (List.pairwise_cons.mp hsuf).1 _ hmem
    have hapart : isInside x p = false := checkNeighbours_ok hok
    rcases between_inside (hafter x List.mem_cons_self) hxq with rfl | ⟨c, w, rfl, hlt | rfl⟩
    · rw [List.nodup_append] at hnodup
      have hdup := (List.nodup_cons.mp hnodup.2.1).1
      exact absurd List.mem_cons_self hdup
    · exact ⟨_, by simp, c, w, rfl, hlt⟩
    · rw [(isInside_iff hne).mpr ⟨w, rfl⟩] at hapart
      cases hapart

theorem checkLink_ok {link : Path} {name : List Char} (h : checkLink nfc link name = .ok ()) :
    Normalized nfc link ∧ link ≠ [] := by
  rw [checkLink] at h
  split at h
  · cases h
  · next p hp =>
    split_ifs at h with hroot hspell hname
    have heq : p = link := not_not.mp hspell
    subst heq
    exact ⟨hp, hroot⟩

theorem validate_ok (h : l.validate nfc = .ok ()) :
    (∀ a ∈ keys l, Normalized nfc a ∧ a ≠ []) ∧ checkNeighbours (sortPaths (keys l)) = .ok () := by
  rw [Links.validate] at h
  split at h
  · cases h
  · cases hforM : l.forM fun link => checkLink nfc link.1 link.2 with
    | error err =>
      rw [hforM] at h
      cases h
    | ok u =>
      rw [hforM] at h
      refine ⟨fun a ha => ?_, h⟩
      obtain ⟨e, he, rfl⟩ := List.mem_map.mp ha
      exact checkLink_ok (forM_ok hforM e he)

theorem mem_sortPaths {paths : List Path} : p ∈ sortPaths paths ↔ p ∈ paths :=
  List.mem_insertionSort _

theorem sortPaths_sorted (paths : List Path) :
    (sortPaths paths).Pairwise fun a b => textLe a b = true := by
  have : Std.Total fun a b : Path => textLe a b = true := ⟨textLe_total⟩
  have : IsTrans Path fun a b => textLe a b = true := ⟨fun _ _ _ => textLe_trans⟩
  exact List.pairwise_insertionSort _ paths

theorem flat_iff (hnodup : (keys l).Nodup) (h : l.validate nfc = .ok ()) : l.Flat ↔ ¬l.Parted := by
  obtain ⟨hkeys, hok⟩ := validate_ok h
  constructor
  · rintro hflat ⟨p, hp, ⟨q, hq, hin⟩, -⟩
    rw [hflat q hq p hp] at hin
    cases hin
  · intro hparted a ha b hb
    by_contra hin
    rw [Bool.not_eq_false] at hin
    have hsorted : (sortPaths (keys l)).Nodup := (List.perm_insertionSort _ _).nodup_iff.mpr hnodup
    obtain ⟨x, hx, hcont⟩ :=
      parted_of_inside (sortPaths_sorted (keys l)) hsorted hok (mem_sortPaths.mpr hb)
      (hkeys b hb).2 (mem_sortPaths.mpr ha) hin
    exact hparted ⟨b, hb, ⟨a, ha, hin⟩, x, mem_sortPaths.mp hx, hcont⟩

end Neighbours

section Resolve

variable {nfc : Path → Path} {l : Links} {p q a : Path} {name : List Char}

theorem normalizePath_eq {p' : Path} (h : normalizePath nfc (some p) = .ok p') :
    p' = trimSlashes (nfc p) := by
  simp only [normalizePath] at h
  split at h
  · cases h
  · split at h
    · next hnil =>
      cases h
      exact hnil.symm
    · split at h
      · cases h
      · cases hsegs : checkSegments ((trimSlashes (nfc p)).splitOn '/') with
        | error e =>
          rw [hsegs] at h
          cases h
        | ok u =>
          rw [hsegs] at h
          simp only [bind, Except.bind] at h
          split at h
          · cases h
          · cases h
            rfl

theorem trimSlashes_ne (v a : Path) : trimSlashes v ≠ a ++ ['/'] := by
  intro h
  rw [trimSlashes, List.rdropWhile] at h
  have hrev := congrArg List.reverse h
  rw [List.reverse_reverse, List.reverse_append, List.reverse_singleton,
    List.singleton_append] at hrev
  have hnot := List.head?_dropWhile_not (· == '/') (v.dropWhile (· == '/')).reverse
  rw [hrev] at hnot
  simp at hnot

theorem Normalized.not_trailing (h : Normalized nfc (a ++ ['/'])) : False :=
  trimSlashes_ne _ a (normalizePath_eq h).symm

theorem atOrBelow_parent (ha : a ≠ []) (hne : q ≠ a) (h : AtOrBelow q a) :
    AtOrBelow (parentOf q) a := by
  rcases h with rfl | h
  · exact absurd rfl hne
  · obtain ⟨x, rfl⟩ := (isInside_iff ha).mp h
    rw [parentOf_append]
    split
    · exact .inr ((isInside_iff ha).mpr ⟨_, rfl⟩)
    · exact .inl rfl

theorem atOrBelow_of_parent (ha : a ≠ []) (h : AtOrBelow (parentOf q) a) : AtOrBelow q a := by
  have hne : parentOf q ≠ [] := by
    intro hnil
    rw [hnil] at h
    rcases h with h | h
    · exact ha h.symm
    · cases h
  obtain ⟨seg, hq, -⟩ := eq_append_of_parentOf hne
  rcases h with h | h
  · rw [h] at hq
    exact .inr ((isInside_iff ha).mpr ⟨seg, hq⟩)
  · obtain ⟨x, hx⟩ := (isInside_iff ha).mp h
    rw [hx] at hq
    exact .inr ((isInside_iff ha).mpr ⟨x ++ '/' :: seg, by rw [hq]; simp⟩)

theorem not_atOrBelow_nil (ha : a ≠ []) : ¬AtOrBelow [] a := by
  rintro (h | h)
  · exact ha h.symm
  · cases h

theorem resolveFrom_eq (hkeys : ∀ b ∈ keys l, b ≠ []) (ha : l.lookup a = some name)
    (h : AtOrBelow q a) (hone : ∀ b ∈ keys l, AtOrBelow q b → b = a) (p : Path) :
    l.resolveFrom p q = some (a, name, trimPrefix ['/'] (trimPrefix a p)) := by
  have hane := hkeys a (mem_keys_of_lookup ha)
  induction hn : q.length using Nat.strongRecOn generalizing q with
  | _ n ih =>
    rw [Links.resolveFrom]
    split
    · next hq =>
      rw [hq] at h
      exact absurd h (not_atOrBelow_nil hane)
    · next hq =>
      split
      · next name' hname =>
        have heq := hone q (mem_keys_of_lookup hname) (.inl rfl)
        subst heq
        rw [ha] at hname
        cases hname
        rfl
      · next hnone =>
        have hne : q ≠ a := by
          rintro rfl
          rw [ha] at hnone
          cases hnone
        refine ih _ (hn ▸ length_parentOf_lt hq) (atOrBelow_parent hane hne h)
          (fun b hb hbelow => ?_) rfl
        exact hone b hb (atOrBelow_of_parent (hkeys b hb) hbelow)

theorem resolveFrom_eq_none (hkeys : ∀ b ∈ keys l, b ≠ []) (h : ∀ b ∈ keys l, ¬AtOrBelow q b)
    (p : Path) :
    l.resolveFrom p q = none := by
  induction hn : q.length using Nat.strongRecOn generalizing q with
  | _ n ih =>
    rw [Links.resolveFrom]
    split
    · rfl
    · next hq =>
      split
      · next name hname => exact absurd (.inl rfl) (h q (mem_keys_of_lookup hname))
      · refine ih _ (hn ▸ length_parentOf_lt hq) (fun b hb hbelow => ?_) rfl
        exact h b hb (atOrBelow_of_parent (hkeys b hb) hbelow)

theorem trimPrefix_append (s x : Path) : trimPrefix s (s ++ x) = x := by
  have hpre : s.isPrefixOf (s ++ x) = true :=
    List.isPrefixOf_iff_prefix.mpr (List.prefix_append s x)
  rw [trimPrefix, Net.cutPrefix, if_pos hpre, List.drop_left]
  rfl

theorem joinBelow_inner (ha : a ≠ []) (hp : Normalized nfc p) (h : AtOrBelow p a) :
    joinBelow a (trimPrefix ['/'] (trimPrefix a p)) = p := by
  rcases h with rfl | h
  · have hself : trimPrefix p p = [] := by simpa using trimPrefix_append p []
    rw [hself]
    rfl
  · obtain ⟨x, rfl⟩ := (isInside_iff ha).mp h
    have hx : x ≠ [] := by
      rintro rfl
      exact hp.not_trailing
    have hslash : trimPrefix ['/'] ('/' :: x) = x := trimPrefix_append ['/'] x
    rw [trimPrefix_append, hslash, joinBelow, if_neg hx]

theorem atOrBelow_unique (hkeys : ∀ b ∈ keys l, b ≠ []) (hflat : l.Flat) {b : Path}
    (ha : a ∈ keys l) (hb : b ∈ keys l) (hpa : AtOrBelow p a) (hpb : AtOrBelow p b) : a = b := by
  rcases hpa with rfl | hpa
  · rcases hpb with rfl | hpb
    · rfl
    · rw [hflat p ha b hb] at hpb
      cases hpb
  · rcases hpb with rfl | hpb
    · rw [hflat p hb a ha] at hpa
      cases hpa
    · obtain ⟨x, rfl⟩ := (isInside_iff (hkeys a ha)).mp hpa
      obtain ⟨y, hy⟩ := (isInside_iff (hkeys b hb)).mp hpb
      rcases inside_of_append_eq (hkeys a ha) (hkeys b hb) hy with heq | hin | hin
      · exact heq
      · rw [hflat a ha b hb] at hin
        cases hin
      · rw [hflat b hb a ha] at hin
        cases hin

theorem resolves_of_flat (hnodup : (keys l).Nodup) (hkeys : ∀ b ∈ keys l, b ≠ []) (hflat : l.Flat) :
    l.Resolves nfc := by
  intro p hp
  refine ⟨fun a ha b hb => atOrBelow_unique hkeys hflat ha hb, fun a name hmem hbelow =>
    ?_, fun hnone => ?_⟩
  · have ha := lookup_of_mem hnodup hmem
    have hane := hkeys a (mem_keys_of_lookup ha)
    refine ⟨_, ?_, joinBelow_inner hane hp hbelow⟩
    rw [Links.resolve, if_neg]
    · refine resolveFrom_eq hkeys ha hbelow (fun b hb hpb => ?_) p
      exact atOrBelow_unique hkeys hflat hb (mem_keys_of_lookup ha) hpb hbelow
    · rintro (rfl | rfl)
      · cases hmem
      · exact not_atOrBelow_nil hane hbelow
  · rw [Links.resolve]
    split
    · rfl
    · exact resolveFrom_eq_none hkeys hnone p

end Resolve

/-- Accepted links are flat, and resolve every path, exactly if none parts another from what is
inside it. -/
theorem links_iff {nfc : Path → Path} {l : Links} (hnodup : (keys l).Nodup)
    (h : l.validate nfc = .ok ()) :
    l.Flat ∧ l.Resolves nfc ↔ ¬l.Parted := by
  rw [← flat_iff hnodup h]
  refine ⟨fun hboth => hboth.1, fun hflat => ⟨hflat, ?_⟩⟩
  exact resolves_of_flat hnodup (fun b hb => ((validate_ok h).1 b hb).2) hflat

/-- Two teams side by side. -/
def twoTeams : Links :=
  [("teams/red".toList, "red".toList), ("teams/blue".toList, "blue".toList)]

theorem links_iff_teams : twoTeams.Flat ∧ twoTeams.Resolves id := by
  have hvalid : twoTeams.validate id = .ok () := by decide
  refine (links_iff (by decide) hvalid).mpr ?_
  rintro ⟨p, hp, ⟨q, hq, hin⟩, -⟩
  revert p q
  decide

/-- A name with a hyphen sorts between a link and one inside it. -/
theorem not_flat_hyphen :
    Links.validate id
      [("a".toList, "x".toList), ("a-b".toList, "y".toList), ("a/b".toList, "z".toList)] = .ok () ∧
      ¬Links.Flat [("a".toList, "x".toList), ("a-b".toList, "y".toList),
        ("a/b".toList, "z".toList)] := by
  refine ⟨by decide, ?_⟩
  intro h
  exact absurd (h "a/b".toList (by decide) "a".toList (by decide)) (by decide)

end ThanksComputer.Drive

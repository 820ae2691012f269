import ThanksComputer.Drive.Preconditions

/-! If-Match as a guard: the entries of a header value as a grammar has them, and the decision that
is made from the parsed list. -/

namespace ThanksComputer.Drive

section Grammar

def isListSep (c : Char) : Prop :=
  c = ',' ∨ c = ' ' ∨ c = '\t'

def weakMark (weak : Bool) : List Char :=
  if weak then ['W', '/'] else []

def listed (e : ETagEntry) (es : List ETagEntry) : List ETagEntry :=
  if e.tag = [] then es else e :: es

/-- The entries of a list: quoted ones up to their closing quote, bare ones up to the next comma.
What follows a quote that is never closed is no entry. -/
inductive Entries : List Char → List ETagEntry → Prop
  | done : Entries [] []
  | sep {c : Char} {v : List Char} {es : List ETagEntry} (hc : isListSep c) (h : Entries v es) :
    Entries (c :: v) es
  | quoted {tag v : List Char} {es : List ETagEntry} (weak : Bool) (htag : '"' ∉ tag)
    (h : Entries v es) :
      Entries (weakMark weak ++ '"' :: (tag ++ '"' :: v)) (listed ⟨tag, weak⟩ es)
  | unclosed {tag : List Char} (weak : Bool) (htag : '"' ∉ tag) : Entries
    (weakMark weak ++ '"' :: tag) []
  | bare {body v : List Char} {es : List ETagEntry} (weak : Bool) (hquote : body.head? ≠ some '"')
      (hweak : weak = false → ¬['W', '/'] <+: body ∧ ∃ c ∈ body.head?, ¬isListSep c)
        (hcomma : ',' ∉ body)
      (hv : v.head? = none ∨ v.head? = some ',') (h : Entries v es) :
      Entries (weakMark weak ++ (body ++ v)) (listed ⟨Guard.trimSpace body, weak⟩ es)

def HasEntry (value : List Char) (e : ETagEntry) : Prop :=
  ∃ es, Entries (Guard.trimSpace value) es ∧ e ∈ es

def NamesStrongly (value etag : List Char) : Prop :=
  ∃ e, HasEntry value e ∧ e.weak = false ∧ e.tag = etag

/-- The write goes ahead exactly if the resource is live and the value names its version or any. -/
def Guards (value : List Char) (live : Bool) (etag : List Char) : Prop :=
  checkPreconditions value [] live etag = .ok () ↔
    live = true ∧ (Guard.trimSpace value = ['*'] ∨ NamesStrongly value etag)

/-- The value has an entry, and none that is a star beside others. -/
def Definite (value : List Char) (live : Bool) (etag : List Char) : Prop :=
  (∃ e, HasEntry value e) ∧
    (live = true → (∃ e, HasEntry value e ∧ e.tag = ['*']) →
      Guard.trimSpace value = ['*'] ∨ NamesStrongly value etag)

/-- The tags in quotes, as a header lists them. -/
def formatETags : List (List Char) → List Char
  | [] => []
  | [t] => '"' :: (t ++ ['"'])
  | t :: u :: ts => '"' :: (t ++ '"' :: ',' :: ' ' :: formatETags (u :: ts))

end Grammar

section Scan

variable {v tag body : List Char} {es : List ETagEntry}

theorem scanETags_sep {c : Char} (hc : isListSep c) (v : List Char) :
    scanETags (c :: v) = scanETags v := by
  rw [scanETags]
  exact dif_pos hc

theorem scanETags_entry {c : Char} (hc : ¬isListSep c) (v : List Char) :
    scanETags (c :: v) = listed (nextETag (c :: v)).1 (scanETags (nextETag (c :: v)).2) := by
  rw [scanETags]
  exact dif_neg hc

theorem stripWeak_of_not_prefix (h : ¬['W', '/'] <+: v) : stripWeak v = (false, v) := by
  rw [stripWeak.eq_def]
  split
  · next v => exact absurd ⟨v, rfl⟩ h
  · rfl

theorem cutAt_of_not_mem {c : Char} (h : c ∉ tag) (v : List Char) :
    cutAt c (tag ++ c :: v) = (tag, c :: v) := by
  have htag : ∀ d ∈ tag, (d != c) = true := by
    intro d hd
    rw [bne_iff_ne]
    rintro rfl
    exact h hd
  rw [cutAt, List.takeWhile_append_of_pos htag, List.dropWhile_append_of_pos htag]
  simp

theorem cutAt_end {c : Char} (h : c ∉ tag) : cutAt c tag = (tag, []) := by
  have htag : ∀ d ∈ tag, (d != c) = true := by
    intro d hd
    rw [bne_iff_ne]
    rintro rfl
    exact h hd
  rw [cutAt, List.takeWhile_eq_self_iff.mpr htag, List.dropWhile_eq_nil_iff.mpr htag]

theorem stripWeak_weakMark (weak : Bool) (h : weak = false → ¬['W', '/'] <+: v) :
    stripWeak (weakMark weak ++ v) = (weak, v) := by
  cases weak with
  | true => rfl
  | false => exact stripWeak_of_not_prefix (h rfl)

theorem nextETag_quoted (weak : Bool) (htag : '"' ∉ tag) (v : List Char) :
    nextETag (weakMark weak ++ '"' :: (tag ++ '"' :: v)) = (⟨tag, weak⟩, v) := by
  have hstrip := stripWeak_weakMark (v := '"' :: (tag ++ '"' :: v)) weak fun _ h => by simp at h
  simp only [nextETag, hstrip, cutAt_of_not_mem htag]
  simp

theorem nextETag_unclosed (weak : Bool) (htag : '"' ∉ tag) :
    nextETag (weakMark weak ++ '"' :: tag) = (⟨[], weak⟩, []) := by
  have hstrip := stripWeak_weakMark (v := '"' :: tag) weak fun _ h => by simp at h
  simp only [nextETag, hstrip, htag, if_false]

theorem nextETag_bare (weak : Bool) (hquote : body.head? ≠ some '"')
    (hweak : weak = false → ¬['W', '/'] <+: body ++ v) (hcomma : ',' ∉ body)
    (hv : v.head? = none ∨ v.head? = some ',') :
    nextETag (weakMark weak ++ (body ++ v)) = (⟨Guard.trimSpace body, weak⟩, v) := by
  have hstrip := stripWeak_weakMark weak hweak
  have hcut : cutAt ',' (body ++ v) = (body, v) := by
    cases v with
    | nil => rw [List.append_nil, cutAt_end hcomma]
    | cons c v =>
      have hc : c = ',' := by simpa using hv
      rw [hc, cutAt_of_not_mem hcomma]
  have hhead : ∀ quoted, body ++ v ≠ '"' :: quoted := by
    intro quoted heq
    cases body with
    | nil =>
      rw [List.nil_append] at heq
      rw [heq] at hv
      simp at hv
    | cons c body =>
      cases heq
      exact hquote rfl
  unfold nextETag
  rw [hstrip]
  dsimp only
  split
  · next quoted heq => exact absurd heq (hhead quoted)
  · rw [hcut]

def Starts (v : List Char) : Prop :=
  ∃ c rest, v = c :: rest ∧ ¬isListSep c

theorem scanETags_next (h : Starts v) :
    scanETags v = listed (nextETag v).1 (scanETags (nextETag v).2) := by
  obtain ⟨c, rest, rfl, hc⟩ := h
  exact scanETags_entry hc rest

theorem starts_quote (weak : Bool) (v : List Char) : Starts (weakMark weak ++ '"' :: v) := by
  cases weak with
  | true => exact ⟨'W', '/' :: '"' :: v, rfl, by simp [isListSep]⟩
  | false => exact ⟨'"', v, rfl, by simp [isListSep]⟩

theorem starts_bare (weak : Bool) (hweak : weak = false → ∃ c ∈ body.head?, ¬isListSep c)
    (v : List Char) :
    Starts (weakMark weak ++ (body ++ v)) := by
  cases weak with
  | true => exact ⟨'W', '/' :: (body ++ v), rfl, by simp [isListSep]⟩
  | false =>
    obtain ⟨c, hc, hsep⟩ := hweak rfl
    cases body with
    | nil => cases hc
    | cons d body =>
      cases hc
      exact ⟨c, body ++ v, rfl, hsep⟩

theorem not_prefix_append (h : ¬['W', '/'] <+: body) (hbody : body ≠ [])
    (hv : v.head? = none ∨ v.head? = some ',') : ¬['W', '/'] <+: body ++ v := by
  rintro ⟨x, hx⟩
  rcases body with - | ⟨a, - | ⟨b, body⟩⟩
  · exact hbody rfl
  · cases v with
    | nil => cases hx
    | cons c v =>
      have hc : c = ',' := by simpa using hv
      cases hx
      cases hc
  · cases hx
    exact h ⟨body, rfl⟩

theorem Entries.eq_scanETags (h : Entries v es) : es = scanETags v := by
  induction h with
  | done => rw [scanETags]
  | sep hc _ ih => rw [scanETags_sep hc, ih]
  | quoted weak htag _ ih =>
    rw [scanETags_next (starts_quote weak _), nextETag_quoted weak htag, ← ih]
  | unclosed weak htag =>
    rw [scanETags_next (starts_quote weak _), nextETag_unclosed weak htag, listed,
      if_pos rfl, scanETags]
  | @bare body v es weak hquote hweak hcomma hv _ ih =>
    have hprefix : weak = false → ¬['W', '/'] <+: body ++ v := by
      intro hw
      obtain ⟨hnot, c, hc, -⟩ := hweak hw
      refine not_prefix_append hnot ?_ hv
      rintro rfl
      cases hc
    rw [scanETags_next (starts_bare weak (fun hw => (hweak hw).2) v),
      nextETag_bare weak hquote hprefix hcomma hv,
      ← ih]

theorem exists_weakMark (v : List Char) :
    ∃ weak w, v = weakMark weak ++ w ∧ (weak = false → ¬['W', '/'] <+: w) := by
  by_cases h : ['W', '/'] <+: v
  · obtain ⟨w, rfl⟩ := h
    exact ⟨true, w, rfl, fun hw => by cases hw⟩
  · exact ⟨false, v, rfl, fun _ => h⟩

theorem exists_entries (v : List Char) : ∃ es, Entries v es := by
  induction hn : v.length using Nat.strongRecOn generalizing v with
  | _ n ih =>
    cases v with
    | nil => exact ⟨[], .done⟩
    | cons c rest =>
      by_cases hc : isListSep c
      · obtain ⟨es, h⟩ := ih rest.length (by rw [← hn, List.length_cons]; omega) rest rfl
        exact ⟨es, .sep hc h⟩
      · obtain ⟨weak, w, hv, hweak⟩ := exists_weakMark (c :: rest)
        have hlen : (weakMark weak).length + w.length = n := by
          rw [← hn, hv, List.length_append]
        rw [hv]
        by_cases hquote : w.head? = some '"'
        · obtain ⟨q, rfl⟩ : ∃ q, w = '"' :: q := by
            cases w with
            | nil => cases hquote
            | cons d q =>
              cases hquote
              exact ⟨q, rfl⟩
          by_cases hclosed : '"' ∈ q
          · obtain ⟨tag, u, rfl, htag⟩ := List.eq_append_cons_of_mem hclosed
            have hu : u.length < n := by
              simp only [List.length_cons, List.length_append] at hlen
              omega
            obtain ⟨es, h⟩ := ih u.length hu u rfl
            exact ⟨_, .quoted weak htag h⟩
          · exact ⟨[], .unclosed weak hclosed⟩
        · -- a bare entry runs to the next comma, or to the end
          obtain ⟨body, u, rfl, hcomma, hu⟩ : ∃ body u, w = body ++ u ∧ ',' ∉ body ∧
              (u.head? = none ∨ u.head? = some ',') := by
            by_cases hmem : ',' ∈ w
            · obtain ⟨body, u, rfl, hbody⟩ := List.eq_append_cons_of_mem hmem
              exact ⟨body, ',' :: u, rfl, hbody, .inr rfl⟩
            · exact ⟨w, [], by simp, hmem, .inl rfl⟩
          have hfirst : weak = false → ∃ d ∈ body.head?, ¬isListSep d := by
            rintro rfl
            cases body with
            | nil =>
              have hhead : (c :: rest).head? = u.head? := congrArg List.head? hv
              rcases hu with hu | hu
              · rw [hu] at hhead
                cases hhead
              · rw [hu] at hhead
                cases hhead
                exact absurd (.inl rfl) hc
            | cons d body =>
              cases hv
              exact ⟨c, rfl, hc⟩
          have hlt : u.length < n := by
            rw [List.length_append] at hlen
            cases weak with
            | true =>
              simp only [weakMark, if_true, List.length_cons] at hlen
              omega
            | false =>
              obtain ⟨d, hd, -⟩ := hfirst rfl
              cases body with
              | nil => cases hd
              | cons _ _ =>
                rw [List.length_cons] at hlen
                omega
          obtain ⟨es, h⟩ := ih u.length hlt u rfl
          refine ⟨_, .bare weak ?_ ?_ hcomma hu h⟩
          · cases body with
            | nil => exact fun h => by cases h
            | cons d body => exact hquote
          · intro hw
            refine ⟨fun hpre => hweak hw (hpre.trans (List.prefix_append body u)), hfirst hw⟩

theorem entries_scanETags (v : List Char) : Entries v (scanETags v) := by
  obtain ⟨es, h⟩ := exists_entries v
  rw [← h.eq_scanETags]
  exact h

end Scan

section Decision

variable {value etag : List Char} {live : Bool}

theorem scanETags_star : scanETags ['*'] = [⟨['*'], false⟩] := by
  have h : Entries (weakMark false ++ (['*'] ++ [])) (listed ⟨Guard.trimSpace ['*'], false⟩ []) :=
    .bare false (by decide) (fun _ => ⟨by decide, '*', rfl, by simp [isListSep]⟩) (by decide)
      (.inl rfl) .done
  have hscan : listed ⟨Guard.trimSpace ['*'], false⟩ [] = scanETags ['*'] := h.eq_scanETags
  rw [← hscan]
  decide

theorem parseETagList_eq (value : List Char) :
    parseETagList value = scanETags (Guard.trimSpace value) := by
  rw [parseETagList]
  split
  · next h => rw [h, scanETags]
  · next h => rw [h, scanETags_star]
  · rfl

theorem hasEntry_iff {e : ETagEntry} : HasEntry value e ↔ e ∈ parseETagList value := by
  rw [parseETagList_eq]
  constructor
  · rintro ⟨es, hes, he⟩
    rwa [← hes.eq_scanETags]
  · intro he
    exact ⟨_, entries_scanETags _, he⟩

theorem checkPreconditions_ifMatch :
    checkPreconditions value [] live etag = .ok () ↔
      (¬∃ e, HasEntry value e) ∨
      live = true ∧ ((∃ e, HasEntry value e ∧ e.tag = ['*']) ∨ NamesStrongly value etag) := by
  have hnone : checkIfNoneMatch [] live etag = .ok () := by
    have hno : noneMatch [] etag = false := rfl
    rw [checkIfNoneMatch, hno, Bool.and_false]
    rfl
  have hcheck : checkPreconditions value [] live etag = checkIfMatch value live etag := by
    rw [checkPreconditions, hnone]
    rfl
  rw [hcheck, checkIfMatch]
  cases hparse : parseETagList value with
  | nil =>
    refine iff_of_true rfl (.inl ?_)
    rintro ⟨e, he⟩
    rw [hasEntry_iff, hparse] at he
    cases he
  | cons e es =>
    have hsome : ∃ e, HasEntry value e :=
      ⟨e, by rw [hasEntry_iff, hparse]; exact List.mem_cons_self⟩
    have hany : ((e :: es).any fun e => e.tag == ['*'] || !e.weak && e.tag == etag) = true ↔
        (∃ e, HasEntry value e ∧ e.tag = ['*']) ∨ NamesStrongly value etag := by
      rw [← hparse, List.any_eq_true]
      simp only [Bool.or_eq_true, Bool.and_eq_true, beq_iff_eq, Bool.not_eq_true', NamesStrongly,
        hasEntry_iff]
      constructor
      · rintro ⟨e, he, hstar | hstrong⟩
        · exact .inl ⟨e, he, hstar⟩
        · exact .inr ⟨e, he, hstrong.1, hstrong.2⟩
      · rintro (⟨e, he, hstar⟩ | ⟨e, he, hweak, htag⟩)
        · exact ⟨e, he, .inl hstar⟩
        · exact ⟨e, he, .inr ⟨hweak, htag⟩⟩
    simp only [List.isEmpty_cons, Bool.false_eq_true, if_false, hsome, not_true_eq_false, false_or]
    cases live with
    | false => exact iff_of_false (by simp) (by simp)
    | true =>
      simp only [Bool.not_true, Bool.false_eq_true, if_false, true_and]
      rw [← hany]
      split
      · next h => exact iff_of_true rfl h
      · next h => exact iff_of_false (by simp) h

theorem star_hasEntry (h : Guard.trimSpace value = ['*']) :
    ∃ e, HasEntry value e ∧ e.tag = ['*'] := by
  refine ⟨⟨['*'], false⟩, ?_, rfl⟩
  rw [hasEntry_iff, parseETagList_eq, h, scanETags_star]
  exact List.mem_cons_self

theorem guards_iff : Guards value live etag ↔ Definite value live etag := by
  rw [Guards, checkPreconditions_ifMatch, Definite]
  by_cases hsome : ∃ e, HasEntry value e
  · simp only [hsome, not_true_eq_false, false_or, true_and]
    constructor
    · intro h hlive hstar
      exact (h.mp ⟨hlive, .inl hstar⟩).2
    · intro h
      refine and_congr_right fun hlive => ?_
      constructor
      · rintro (hstar | hstrong)
        · exact h hlive hstar
        · exact .inr hstrong
      · rintro (hstar | hstrong)
        · exact .inl (star_hasEntry hstar)
        · exact .inr hstrong
  · refine iff_of_false ?_ fun h => hsome h.1
    intro h
    obtain ⟨-, hstar | ⟨e, he, -⟩⟩ := h.mp (.inl hsome)
    · obtain ⟨e, he, -⟩ := star_hasEntry hstar
      exact hsome ⟨e, he⟩
    · exact hsome ⟨e, he⟩

end Decision

section Format

variable {tags : List (List Char)}

theorem scanETags_quoted {tag : List Char} (htag : '"' ∉ tag) (v : List Char) :
    scanETags ('"' :: (tag ++ '"' :: v)) = listed ⟨tag, false⟩ (scanETags v) :=
  (Entries.quoted false htag (entries_scanETags v)).eq_scanETags.symm

theorem scanETags_formatETags (h : ∀ t ∈ tags, '"' ∉ t) :
    scanETags (formatETags tags) = (tags.filter (· ≠ [])).map fun t => ⟨t, false⟩ := by
  have hlisted : ∀ (t : List Char) (ts : List (List Char)),
      listed ⟨t, false⟩ ((ts.filter (· ≠ [])).map fun t => ⟨t, false⟩) =
        ((t :: ts).filter (· ≠ [])).map fun t => ⟨t, false⟩ := by
    intro t ts
    rw [listed, List.filter_cons]
    by_cases ht : t = []
    · simp [ht]
    · simp [ht]
  induction tags with
  | nil => rw [formatETags, scanETags]; rfl
  | cons t ts ih =>
    rw [List.forall_mem_cons] at h
    rw [← hlisted, ← ih h.2]
    cases ts with
    | nil => exact scanETags_quoted h.1 []
    | cons u ts =>
      rw [formatETags, scanETags_quoted h.1, scanETags_sep (.inl rfl),
        scanETags_sep (.inr (.inl rfl))]

theorem formatETags_ends (h : tags ≠ []) :
    ∃ w, formatETags tags = '"' :: w ∧ (formatETags tags).getLast? = some '"' := by
  induction tags with
  | nil => exact absurd rfl h
  | cons t ts ih =>
    cases ts with
    | nil => exact ⟨_, rfl, by rw [formatETags, ← List.cons_append, List.getLast?_concat]⟩
    | cons u ts =>
      obtain ⟨w, hw, hlast⟩ := ih (List.cons_ne_nil _ _)
      refine ⟨_, rfl, ?_⟩
      have heq : formatETags (t :: u :: ts) = ('"' :: (t ++ ['"', ',', ' '])) ++
        formatETags (u :: ts) := by
        simp [formatETags]
      rw [heq, List.getLast?_append, hlast]
      rfl

theorem trimSpace_of_ends {v w : List Char} {c d : Char} (hv : v = c :: w)
    (hc : Guard.isSpace c = false) (hlast : v.getLast? = some d) (hd : Guard.isSpace d = false) :
      Guard.trimSpace v = v := by
  have hfront : v.dropWhile Guard.isSpace = v := by
    rw [hv, List.dropWhile_cons_of_neg (by rw [hc]; exact Bool.false_ne_true)]
  rw [Guard.trimSpace, hfront]
  cases hrev : v.reverse with
  | nil =>
    rw [List.reverse_eq_nil_iff] at hrev
    rw [hrev] at hv
    cases hv
  | cons e u =>
    have he : e = d := by
      have hhead : v.reverse.head? = some d := by rw [List.head?_reverse, hlast]
      rw [hrev] at hhead
      exact Option.some.inj hhead
    rw [List.dropWhile_cons_of_neg (by rw [he, hd]; exact Bool.false_ne_true), ← hrev,
      List.reverse_reverse]

theorem parseETagList_formatETags (h : ∀ t ∈ tags, '"' ∉ t) :
    parseETagList (formatETags tags) = (tags.filter (· ≠ [])).map fun t => ⟨t, false⟩ := by
  rw [parseETagList_eq, ← scanETags_formatETags h]
  by_cases htags : tags = []
  · rw [htags]
    rfl
  · obtain ⟨w, hw, hlast⟩ := formatETags_ends htags
    rw [trimSpace_of_ends hw rfl hlast rfl]

theorem format_roundTrip (h : ∀ t ∈ tags, '"' ∉ t) :
    (parseETagList (formatETags tags) = tags.map fun t => ⟨t, false⟩) ↔ ∀ t ∈ tags, t ≠ [] := by
  rw [parseETagList_formatETags h]
  constructor
  · intro heq
    have hlen := congrArg List.length heq
    rw [List.length_map, List.length_map] at hlen
    have hall := List.length_filter_eq_length_iff.mp hlen
    intro t ht
    simpa using hall t ht
  · intro hne
    rw [List.filter_eq_self.mpr fun t ht => by simpa using hne t ht]

end Format

/-- If-Match decides as it should exactly if its value has an entry and no star beside others that
decides in place of the version; and a list of quoted tags is read back exactly if none is empty. -/
theorem ifMatch_guards (value : List Char) (live : Bool) (etag : List Char)
    (tags : List (List Char)) (htags : ∀ t ∈ tags, '"' ∉ t) :
    (Guards value live etag ↔ Definite value live etag) ∧
      ((parseETagList (formatETags tags) = tags.map fun t => ⟨t, false⟩) ↔ ∀ t ∈ tags, t ≠ []) :=
  ⟨guards_iff, format_roundTrip htags⟩

/-- A list of two tags, of which the second names the version. -/
theorem ifMatch_guards_list :
    Guards "\"a\", \"b\"".toList true ['b'] ∧
    parseETagList (formatETags [['a'], ['b']]) = [⟨['a'], false⟩, ⟨['b'], false⟩] := by
  have hparse : parseETagList (formatETags [['a'], ['b']]) = [⟨['a'], false⟩, ⟨['b'], false⟩] :=
    (ifMatch_guards [] true [] [['a'], ['b']] (by decide)).2.mpr (by decide)
  have hmem : ∀ {e : ETagEntry}, HasEntry "\"a\", \"b\"".toList e ↔
    e ∈ [⟨['a'], false⟩, ⟨['b'], false⟩] := by
    intro e
    rw [hasEntry_iff, ← hparse]
    rfl
  refine ⟨(ifMatch_guards _ true ['b'] [] (by decide)).1.mpr
    ⟨⟨⟨['a'], false⟩, hmem.mpr (by decide)⟩, ?_⟩, hparse⟩
  intro _ _
  exact .inr ⟨⟨['b'], false⟩, hmem.mpr (by decide), rfl, rfl⟩

/-- A quote that is never closed lets the write through, also where nothing is live. -/
theorem not_guards_unclosed : ¬Guards ['"'] false ['b'] := by
  rw [guards_iff]
  rintro ⟨⟨e, es, hes, he⟩, -⟩
  have htrim : Guard.trimSpace ['"'] = weakMark false ++ '"' :: [] := by decide
  have hnil : Entries (weakMark false ++ '"' :: []) [] := .unclosed false (by decide)
  rw [htrim] at hes
  rw [hes.eq_scanETags, ← hnil.eq_scanETags] at he
  cases he

end ThanksComputer.Drive

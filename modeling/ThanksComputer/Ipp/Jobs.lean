import ThanksComputer.Lib.Table

/-! `ipp`: the print jobs of all tenants, changed by one statement at a time from any number of
inlets and dispatchers.  Times are in seconds. -/

namespace ThanksComputer.Ipp

section Model

inductive JobState
  | receiving
  | committed
  | delivered
  | canceled
  | failed
  deriving DecidableEq

def JobState.isTerminal : JobState → Bool
  | .receiving | .committed => false
  | .delivered | .canceled | .failed => true

/-- What a job is created with; `number` counts the jobs of the tenant. -/
structure Facts where
  id : String
  tenant : String
  printer : String
  number : Nat
  requestingUser : String
  jobName : String
  host : String
  uriPath : String
  clientIP : String
  principalID : String
  credentialID : String
  createdAt : Int
  deriving DecidableEq

structure Document where
  name : String
  format : String
  sha256 : Option String
  size : Int
  committedAt : Option Int
  deriving DecidableEq

/-- A row of `ipp_jobs`.  `lease` is the node that holds the job and since when. -/
structure Job where
  facts : Facts
  document : Document
  state : JobState
  stateReason : String
  attempts : Nat
  lease : Option (String × Int)
  rid : Option String
  deliveredAt : Option Int
  updatedAt : Int
  deriving DecidableEq

/-- `seq` is the last number of each tenant; a tenant without a row in `ipp_job_seq` has none. -/
structure Store where
  jobs : List Job
  seq : String → Nat

def Store.empty : Store :=
  ⟨[], fun _ => 0⟩

/-- What a request knows before the document is read. -/
structure NewJob where
  tenant : String
  printer : String
  requestingUser : String
  jobName : String
  documentName : String
  documentFormat : String
  host : String
  uriPath : String
  clientIP : String
  principalID : String
  credentialID : String

/-- The statements, each with the time it is made at.  A lease names the rows it wins: the order and
the limit of its subquery, and the rows it skips as locked, decide only which these are. -/
inductive Statement
  | createJob (nj : NewJob) (id : String) (now : Int)
  | setCommitted (id sha : String) (size : Int) (format documentName : String) (now : Int)
  | markFailed (id reason : String) (now : Int)
  | cancel (tenant printer : String) (number : Nat) (now : Int)
  | leaseCommitted (node : String) (won : List String) (now : Int)
  | markDelivered (id rid : String) (now : Int)
  | releaseLease (id : String) (now : Int)
  | releaseStaleLeases (staleAfter now : Int)
  | failExhausted (maxAttempts : Int) (now : Int)
  | reapReceiving (olderThan now : Int)
  | purge (retention now : Int)

def newJob (nj : NewJob) (id : String) (number : Nat) (now : Int) : Job where
  facts :=
    ⟨id, nj.tenant, nj.printer, number, nj.requestingUser, nj.jobName, nj.host, nj.uriPath,
      nj.clientIP,
    nj.principalID, nj.credentialID, now⟩
  document := ⟨nj.documentName, nj.documentFormat, none, 0, none⟩
  state := .receiving
  stateReason := ""
  attempts := 0
  lease := none
  rid := none
  deliveredAt := none
  updatedAt := now

/-- An id that is there already rolls the transaction back, the number included. -/
def createJob (s : Store) (nj : NewJob) (id : String) (now : Int) : Store :=
  if nj.tenant = "" ∨ nj.printer = "" ∨ id ∈ s.jobs.map (·.facts.id) then s
  else
    { jobs := s.jobs ++ [newJob nj id (s.seq nj.tenant + 1) now]
      seq := fun t => if t = nj.tenant then s.seq t + 1 else s.seq t }

def Statement.hits : Statement → Job → Bool
  | .createJob _ _ _, _ => false
  | .setCommitted id _ _ _ _ _, r => r.facts.id == id && r.state == .receiving
  | .markFailed id _ _, r => r.facts.id == id && (r.state == .receiving || r.state == .committed)
  | .cancel tenant printer number _, r =>
    r.facts.tenant == tenant && r.facts.printer == printer && r.facts.number == number &&
      (r.state == .receiving || r.state == .committed) && r.lease.isNone
  | .leaseCommitted _ won _, r => r.state == .committed && r.lease.isNone && won.contains r.facts.id
  | .markDelivered id _ _, r => r.facts.id == id && r.state == .committed
  | .releaseLease id _, r => r.facts.id == id && r.state == .committed
  | .releaseStaleLeases staleAfter now, r =>
    r.state == .committed && r.lease.any fun l => decide (l.2 < now - staleAfter)
  | .failExhausted maxAttempts _, r =>
    decide (0 < maxAttempts) && r.state == .committed && r.lease.isNone &&
      decide (maxAttempts ≤ r.attempts)
  | .reapReceiving olderThan now, r =>
    r.state == .receiving && decide (r.facts.createdAt < now - olderThan)
  | .purge _ _, _ => false

/-- What an update sets on a row. -/
def Statement.set : Statement → Job → Job
  | .createJob _ _ _, r => r
  | .setCommitted _ sha size format documentName now, r =>
    { r with
      state := .committed
      document :=
        ⟨if documentName = "" then r.document.name else documentName, format, some sha,
          size, some now⟩
      updatedAt := now }
  | .markFailed _ reason now, r =>
    { r with state := .failed, stateReason := reason, lease := none, updatedAt := now }
  | .cancel _ _ _ now, r =>
    { r with state := .canceled, stateReason := "canceled by client", updatedAt := now }
  | .leaseCommitted node _ now, r =>
    { r with lease := some (node, now), attempts := r.attempts + 1, updatedAt := now }
  | .markDelivered _ rid now, r =>
    { r with
      state := .delivered, rid := some rid, deliveredAt := some now, lease := none,
      updatedAt := now }
  | .releaseLease _ now, r => { r with lease := none, updatedAt := now }
  | .releaseStaleLeases _ now, r => { r with lease := none, updatedAt := now }
  | .failExhausted _ now, r =>
    { r with state := .failed, stateReason := "delivery attempts exhausted", updatedAt := now }
  | .reapReceiving _ now, r =>
    { r with state := .failed, stateReason := "document never arrived", updatedAt := now }
  | .purge _ _, r => r

/-- The rows a statement deletes. -/
def Statement.purges : Statement → Job → Bool
  | .purge retention now, r => r.state.isTerminal && decide (r.updatedAt < now - retention)
  | _, _ => false

def Store.change (s : Store) (e : Statement) : Store :=
  { s with jobs := (Lib.Table.update e.hits e.set s.jobs).filter fun r => !e.purges r }

def step (s : Store) : Statement → Store
  | .createJob nj id now => createJob s nj id now
  | e => s.change e

def run (s : Store) (es : List Statement) : Store :=
  es.foldl step s

end Model

section Follows

def JobState.leads : JobState → JobState → Bool
  | .receiving, _ => true
  | .committed, .receiving => false
  | .committed, _ => true
  | a, b => a == b

/-- A row as it may be found later: its facts are the same, its state has moved on, its document is
the one it was committed with, and once it has ended nothing changes any more. -/
structure Follows (r r' : Job) : Prop where
  facts : r'.facts = r.facts
  leads : r.state.leads r'.state = true
  document : r.state ≠ .receiving → r'.document = r.document
  final : r.state.isTerminal = true → r' = r
  attempts : r.attempts ≤ r'.attempts

theorem JobState.leads_refl (a : JobState) : a.leads a = true := by
  cases a <;> rfl

theorem JobState.leads_trans {a b c : JobState} (hab : a.leads b = true) (hbc : b.leads c = true) :
    a.leads c = true := by
  revert hab hbc
  cases a <;> cases b <;> cases c <;> decide

theorem JobState.ne_receiving {a b : JobState} (h : a.leads b = true) (ha : a ≠ .receiving) :
    b ≠ .receiving := by
  revert h ha
  cases a <;> cases b <;> decide

theorem Follows.refl (r : Job) : Follows r r :=
  ⟨rfl, r.state.leads_refl, fun _ => rfl, fun _ => rfl, Nat.le_refl _⟩

theorem Follows.trans {r r' r'' : Job} (h : Follows r r') (h' : Follows r' r'') :
    Follows r r'' where
  facts := h'.facts.trans h.facts
  leads := JobState.leads_trans h.leads h'.leads
  document hr := (h'.document (JobState.ne_receiving h.leads hr)).trans (h.document hr)
  final hr := by
    obtain rfl := h.final hr
    exact h'.final hr
  attempts := Nat.le_trans h.attempts h'.attempts

theorem follows_of_live {r r' : Job} (hfacts : r'.facts = r.facts)
    (hattempts : r.attempts ≤ r'.attempts)
    (hlive : r.state = .receiving ∨ r.state = .committed ∧ r'.state ≠ .receiving ∧
    r'.document = r.document) :
    Follows r r' := by
  refine ⟨hfacts, ?_, ?_, ?_, hattempts⟩
  · rcases hlive with hr | ⟨hr, hne, -⟩
    · rw [hr]
      rfl
    · rw [hr]
      cases hs : r'.state with
      | receiving => exact absurd hs hne
      | committed | delivered | canceled | failed => rfl
  · intro hr
    rcases hlive with hr' | ⟨-, -, hdoc⟩
    · exact absurd hr' hr
    · exact hdoc
  · intro hr
    rcases hlive with hr' | ⟨hr', -, -⟩
    · rw [hr'] at hr
      cases hr
    · rw [hr'] at hr
      cases hr

theorem follows_of_committed {r r' : Job} (hfacts : r'.facts = r.facts)
    (hattempts : r.attempts ≤ r'.attempts) (hr : r.state = .committed) (hstate : r'.state = r.state)
    (hdoc : r'.document = r.document) : Follows r r' := by
  refine follows_of_live hfacts hattempts (.inr ⟨hr, ?_, hdoc⟩)
  rw [hstate, hr]
  rintro ⟨⟩

theorem Statement.follows (e : Statement) {r : Job} (h : e.hits r = true) :
    Follows r (e.set r) := by
  cases e with
  | createJob | purge => cases h
  | setCommitted =>
    simp only [Statement.hits, Bool.and_eq_true, beq_iff_eq] at h
    exact follows_of_live rfl (Nat.le_refl _) (.inl h.2)
  | markFailed =>
    simp only [Statement.hits, Bool.and_eq_true, Bool.or_eq_true, beq_iff_eq] at h
    exact follows_of_live rfl (Nat.le_refl _) (h.2.imp_right fun hr => ⟨hr, by rintro ⟨⟩, rfl⟩)
  | cancel =>
    simp only [Statement.hits, Bool.and_eq_true, Bool.or_eq_true, beq_iff_eq] at h
    exact follows_of_live rfl (Nat.le_refl _) (h.1.2.imp_right fun hr => ⟨hr, by rintro ⟨⟩, rfl⟩)
  | leaseCommitted =>
    simp only [Statement.hits, Bool.and_eq_true, beq_iff_eq] at h
    exact follows_of_committed rfl (Nat.le_succ _) h.1.1 rfl rfl
  | markDelivered =>
    simp only [Statement.hits, Bool.and_eq_true, beq_iff_eq] at h
    exact follows_of_live rfl (Nat.le_refl _) (.inr ⟨h.2, by rintro ⟨⟩, rfl⟩)
  | releaseLease =>
    simp only [Statement.hits, Bool.and_eq_true, beq_iff_eq] at h
    exact follows_of_committed rfl (Nat.le_refl _) h.2 rfl rfl
  | releaseStaleLeases =>
    simp only [Statement.hits, Bool.and_eq_true, beq_iff_eq] at h
    exact follows_of_committed rfl (Nat.le_refl _) h.1 rfl rfl
  | failExhausted =>
    simp only [Statement.hits, Bool.and_eq_true, beq_iff_eq] at h
    exact follows_of_live rfl (Nat.le_refl _) (.inr ⟨h.1.1.2, by rintro ⟨⟩, rfl⟩)
  | reapReceiving =>
    simp only [Statement.hits, Bool.and_eq_true, beq_iff_eq] at h
    exact follows_of_live rfl (Nat.le_refl _) (.inl h.1)

end Follows

section Runs

variable {s : Store} {e : Statement} {r r' : Job}

/-- How a client knows a job. -/
def Job.key (r : Job) : String × Nat :=
  (r.facts.tenant, r.facts.number)

theorem Follows.key_eq (h : Follows r r') : r'.key = r.key := by
  rw [Job.key, Job.key, h.facts]

theorem step_cases (s : Store) (e : Statement) :
    step s e = s ∨
    (∃ nj id now, step s e =
      { jobs := s.jobs ++ [newJob nj id (s.seq nj.tenant + 1) now]
        seq := fun t => if t = nj.tenant then s.seq t + 1 else s.seq t }) ∨
    step s e = s.change e := by
  cases e with
  | createJob nj id now =>
    rw [step, createJob]
    split
    · exact .inl rfl
    · exact .inr (.inl ⟨nj, id, now, rfl⟩)
  | setCommitted | markFailed | cancel | leaseCommitted | markDelivered | releaseLease
  | releaseStaleLeases
  | failExhausted | reapReceiving | purge => exact .inr (.inr rfl)

theorem follows_update (e : Statement) (r : Job) :
    Follows r (if e.hits r = true then e.set r else r) := by
  split
  · next h => exact e.follows h
  · exact .refl r

theorem hits_of_purges (h : e.purges r' = true) : e.hits r = false := by
  cases e with
  | purge => rfl
  | createJob | setCommitted | markFailed | cancel | leaseCommitted | markDelivered | releaseLease
  | releaseStaleLeases | failExhausted | reapReceiving => cases h

theorem mem_change : r' ∈ (s.change e).jobs ↔
    (∃ r ∈ s.jobs, (if e.hits r = true then e.set r else r) = r') ∧ e.purges r' = false := by
  rw [Store.change, List.mem_filter, Lib.Table.mem_update, Bool.not_eq_true']

theorem step_back (h : r' ∈ (step s e).jobs) :
    (∃ r ∈ s.jobs, Follows r r') ∨ s.seq r'.facts.tenant < r'.facts.number := by
  rcases step_cases s e with heq | ⟨nj, id, now, heq⟩ | heq
  · rw [heq] at h
    exact .inl ⟨r', h, .refl r'⟩
  · rw [heq] at h
    rcases List.mem_append.mp h with h | h
    · exact .inl ⟨r', h, .refl r'⟩
    · rw [List.mem_singleton.mp h]
      exact .inr (Nat.lt_succ_self _)
  · rw [heq, mem_change] at h
    obtain ⟨⟨r, hr, rfl⟩, -⟩ := h
    exact .inl ⟨r, hr, follows_update e r⟩

theorem step_forward (h : r ∈ s.jobs) :
    (∃ r' ∈ (step s e).jobs, Follows r r') ∨ e.purges r = true := by
  rcases step_cases s e with heq | ⟨nj, id, now, heq⟩ | heq
  · refine .inl ⟨r, ?_, .refl r⟩
    rw [heq]
    exact h
  · refine .inl ⟨r, ?_, .refl r⟩
    rw [heq]
    exact List.mem_append_left _ h
  · cases hpurges : e.purges (if e.hits r = true then e.set r else r) with
    | false =>
      refine .inl ⟨_, ?_, follows_update e r⟩
      rw [heq, mem_change]
      exact ⟨⟨r, h, rfl⟩, hpurges⟩
    | true =>
      rw [hits_of_purges hpurges, if_neg Bool.false_ne_true] at hpurges
      exact .inr hpurges

theorem seq_step (s : Store) (e : Statement) (t : String) : s.seq t ≤ (step s e).seq t := by
  rcases step_cases s e with heq | ⟨nj, id, now, heq⟩ | heq
  · rw [heq]
  · rw [heq]
    dsimp only
    split
    · exact Nat.le_succ _
    · exact Nat.le_refl _
  · rw [heq]
    exact Nat.le_refl _

/-- The jobs of a tenant have different numbers, none above the last one given out. -/
structure Numbered (s : Store) : Prop where
  distinct : (s.jobs.map Job.key).Nodup
  bounded : ∀ r ∈ s.jobs, r.facts.number ≤ s.seq r.facts.tenant

theorem keys_change (s : Store) (e : Statement) :
    ((s.change e).jobs.map Job.key).Sublist (s.jobs.map Job.key) := by
  have hkeys : (Lib.Table.update e.hits e.set s.jobs).map Job.key = s.jobs.map Job.key := by
    rw [Lib.Table.update, List.map_map]
    apply List.map_congr_left
    intro r _
    exact (follows_update e r).key_eq
  rw [← hkeys]
  exact List.filter_sublist.map Job.key

theorem Numbered.bounded_step (h : Numbered s) (hr' : r' ∈ (step s e).jobs) :
    r'.facts.number ≤ (step s e).seq r'.facts.tenant := by
  have hle := seq_step s e r'.facts.tenant
  rcases step_cases s e with heq | ⟨nj, id, now, heq⟩ | heq
  · rw [heq] at hr' ⊢
    exact h.bounded r' hr'
  · rw [heq] at hr' hle ⊢
    rcases List.mem_append.mp hr' with hr' | hr'
    · exact Nat.le_trans (h.bounded r' hr') hle
    · rw [List.mem_singleton.mp hr']
      show s.seq nj.tenant + 1 ≤ if nj.tenant = nj.tenant then s.seq nj.tenant + 1
        else s.seq nj.tenant
      rw [if_pos rfl]
  · rw [heq, mem_change] at hr'
    obtain ⟨⟨r, hr, rfl⟩, -⟩ := hr'
    rw [(follows_update e r).facts] at hle ⊢
    exact Nat.le_trans (h.bounded r hr) hle

theorem Numbered.step (h : Numbered s) (e : Statement) : Numbered (step s e) := by
  refine ⟨?_, fun r' hr' => h.bounded_step hr'⟩
  rcases step_cases s e with heq | ⟨nj, id, now, heq⟩ | heq
  · rw [heq]
    exact h.distinct
  · rw [heq]
    refine Lib.Table.nodup_insert h.distinct fun r hr hkey => ?_
    obtain ⟨htenant, hnumber⟩ := Prod.mk.injEq .. ▸ hkey
    have hle := h.bounded r hr
    rw [htenant, hnumber] at hle
    exact absurd hle (Nat.not_succ_le_self _)
  · rw [heq]
    exact h.distinct.sublist (keys_change s e)

theorem Numbered.run (h : Numbered s) (es : List Statement) : Numbered (run s es) := by
  induction es generalizing s with
  | nil => exact h
  | cons e es ih => exact ih (h.step e)

theorem run_back {es : List Statement} (h : r' ∈ (run s es).jobs) :
    (∃ r ∈ s.jobs, Follows r r') ∨ s.seq r'.facts.tenant < r'.facts.number := by
  induction es generalizing s with
  | nil => exact .inl ⟨r', h, .refl r'⟩
  | cons e es ih =>
    rcases ih h with ⟨r₁, hr₁, hfollows⟩ | hlt
    · rcases step_back hr₁ with ⟨r, hr, hfollows'⟩ | hlt
      · exact .inl ⟨r, hr, hfollows'.trans hfollows⟩
      · rw [hfollows.facts]
        exact .inr hlt
    · exact .inr (Nat.lt_of_le_of_lt (seq_step s e _) hlt)

theorem run_forward (es : List Statement) (h : r ∈ s.jobs) :
    (∃ r' ∈ (run s es).jobs, Follows r r') ∨
      ∃ mid e rest r₁, es = mid ++ e :: rest ∧ r₁ ∈ (run s mid).jobs ∧ Follows r r₁ ∧
        e.purges r₁ = true := by
  induction es generalizing s r with
  | nil => exact .inl ⟨r, h, .refl r⟩
  | cons e es ih =>
    rcases step_forward (e := e) h with ⟨r₁, hr₁, hfollows⟩ | hpurges
    · rcases ih hr₁ with ⟨r', hr', hfollows'⟩ | ⟨mid, e', rest, r₂, rfl, hr₂, hfollows', hpurges⟩
      · exact .inl ⟨r', hr', hfollows.trans hfollows'⟩
      · exact .inr ⟨e :: mid, e', rest, r₂, rfl, hr₂, hfollows.trans hfollows', hpurges⟩
    · exact .inr ⟨[], e, es, r, rfl, h, .refl r, hpurges⟩

theorem numbered_empty : Numbered .empty :=
  ⟨List.nodup_nil, List.forall_mem_nil _⟩

/-- In every interleaving of statements a job goes from receiving over committed to one end and
stays there: whatever row is later found under its number is that job, with the document it was
committed with; no number is given out twice, and a row is gone only if it had ended and was
purged. -/
theorem jobs_follow (before after : List Statement) (r : Job) (hr : r ∈ (run .empty before).jobs) :
    ((run .empty (before ++ after)).jobs.map Job.key).Nodup ∧
      (∀ r' ∈ (run .empty (before ++ after)).jobs, r'.key = r.key → Follows r r') ∧
      ((∃ r' ∈ (run .empty (before ++ after)).jobs, r'.key = r.key) ∨
        ∃ mid e rest r₁, after = mid ++ e :: rest ∧ r₁ ∈ (run .empty (before ++ mid)).jobs ∧
          Follows r r₁ ∧
          r₁.state.isTerminal = true ∧ e.purges r₁ = true) := by
  have hnumbered := numbered_empty.run before
  have hsplit : ∀ es, run .empty (before ++ es) = run (run .empty before) es := fun es =>
    List.foldl_append
  rw [hsplit]
  refine ⟨(hnumbered.run after).distinct, ?_, ?_⟩
  · intro r' hr' hkey
    rcases run_back hr' with ⟨r₀, hr₀, hfollows⟩ | hlt
    · have heq : r₀ = r :=
        Lib.Table.eq_of_key hnumbered.distinct hr₀ hr (hfollows.key_eq.symm.trans hkey)
      exact heq ▸ hfollows
    · obtain ⟨htenant, hnumber⟩ := Prod.mk.injEq .. ▸ hkey
      have hle := hnumbered.bounded r hr
      rw [htenant, hnumber] at hlt
      exact absurd hlt (Nat.not_lt_of_le hle)
  · rcases run_forward after hr with ⟨r', hr', hfollows⟩
      | ⟨mid, e, rest, r₁, rfl, hr₁, hfollows, hpurges⟩
    · exact .inl ⟨r', hr', hfollows.key_eq⟩
    · refine .inr ⟨mid, e, rest, r₁, rfl, by rw [hsplit]; exact hr₁, hfollows, ?_, hpurges⟩
      cases e with
      | purge retention now =>
        rw [Statement.purges, Bool.and_eq_true] at hpurges
        exact hpurges.1
      | createJob | setCommitted | markFailed | cancel | leaseCommitted | markDelivered
      | releaseLease
      | releaseStaleLeases | failExhausted | reapReceiving => cases hpurges

def printing : List Statement :=
  [.createJob ⟨"acme", "desk", "", "", "", "", "", "", "", "", ""⟩ "ipj_1" 10,
    .setCommitted "ipj_1" "sha" 4 "application/pdf" "" 12]

/-- A job that is leased and delivered, and is canceled too late and purged too early. -/
def printed : List Statement :=
  [.leaseCommitted "node" ["ipj_1"] 13, .cancel "acme" "desk" 1 14, .markDelivered "ipj_1" "rid" 15,
    .purge 100 16]

theorem jobs_follow_printed :
    ∃ r ∈ (run .empty printing).jobs, r.state = .committed ∧
      ∃ r' ∈ (run .empty (printing ++ printed)).jobs, r'.state = .delivered ∧ Follows r r' := by
  obtain ⟨r, hjobs, hstate, hkey⟩ :
      ∃ r, (run .empty printing).jobs = [r] ∧ r.state = .committed ∧
        r.key = ("acme", 1) := ⟨_, rfl, rfl, rfl⟩
  obtain ⟨r', hjobs', hstate', hkey'⟩ :
      ∃ r', (run .empty (printing ++ printed)).jobs = [r'] ∧ r'.state = .delivered ∧
        r'.key = ("acme", 1) :=
    ⟨_, rfl, rfl, rfl⟩
  have hr : r ∈ (run .empty printing).jobs := by
    rw [hjobs]
    exact List.mem_singleton_self r
  have hr' : r' ∈ (run .empty (printing ++ printed)).jobs := by
    rw [hjobs']
    exact List.mem_singleton_self r'
  exact ⟨r, hr, hstate, r', hr', hstate',
    (jobs_follow printing printed r hr).2.1 r' hr' (hkey'.trans hkey.symm)⟩

end Runs

end ThanksComputer.Ipp

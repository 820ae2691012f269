import ThanksComputer.Dns.Lane
import ThanksComputer.Dns.Existence
import ThanksComputer.Lib.Runs

/-! What a rebuild leaves behind.  It empties the cache, and neither the open flights nor the runs
that will still write to the cache; when there are none, what was begun before it reaches no later
query. -/

namespace ThanksComputer.Dns

open Net Lib.Runs

section Invariant

variable {E : Externals} {h h' : Head}

/-- The reply is from a snapshot or a run of the time after the rebuilds that were over when the
query arrived. -/
def SourceFresh (query : Query) : Source → Prop
  | .snapshot => query.arrived ≤ query.version
  | .stack begun dispatched => query.arrived ≤ begun ∧ query.arrived ≤ dispatched

def FlightAt (h : Head) (f begun : Nat) : Prop :=
  ∃ flight, h.flights[f]? = some flight ∧ flight.begun = begun

def RunAt (h : Head) (r begun : Nat) : Prop :=
  ∃ run, h.runs[r]? = some run ∧ run.begun = begun

def ServedOk (begun : Nat) (s : Served) : Prop :=
  s.begun = begun ∧ begun ≤ s.dispatched

def PhaseOk (h : Head) (query : Query) : Phase → Prop
  | .loaded | .missed => True
  | .leading f begun => query.arrived ≤ begun ∧ begun = h.completed ∧ FlightAt h f begun
  | .waiting f begun r => query.arrived ≤ begun ∧ FlightAt h f begun ∧ RunAt h r begun
  | .returned f begun res => query.arrived ≤ begun ∧ FlightAt h f begun ∧
    ∀ s ∈ res, ServedOk begun s
  | .following f => ∃ begun, query.arrived ≤ begun ∧ FlightAt h f begun
  | .replied reply => SourceFresh query reply.source

structure QueryOk (h : Head) (query : Query) : Prop where
  arrived : query.arrived ≤ h.completed
  version : query.arrived ≤ query.version
  phase : PhaseOk h query query.phase

/-- What is in the cache, in an open flight or in a run to come was begun after the last rebuild. -/
structure HeadOk (h : Head) : Prop where
  version : h.completed ≤ h.version
  queries : ∀ query ∈ h.queries, QueryOk h query
  cache : ∀ e ∈ h.cache, h.completed ≤ e.served.begun ∧ e.served.begun ≤ e.served.dispatched
  unfinished : ∀ flight ∈ h.flights, flight.result = none → h.completed ≤ flight.begun
  finished : ∀ flight ∈ h.flights, ∀ s, flight.result = some (some s) → ServedOk flight.begun s
  runs : ∀ run ∈ h.runs, run.begun ≤ run.dispatched ∧
    (run.settled = false → h.completed ≤ run.begun)

structure Grows (h h' : Head) : Prop where
  completed : h'.completed = h.completed
  flights : ∀ f begun, FlightAt h f begun → FlightAt h' f begun
  runs : ∀ r begun, RunAt h r begun → RunAt h' r begun

theorem QueryOk.grow {query : Query} (hq : QueryOk h query) (hg : Grows h h') :
    QueryOk h' query where
  arrived := hg.completed ▸ hq.arrived
  version := hq.version
  phase := by
    have hphase := hq.phase
    cases hp : query.phase with
    | loaded => trivial
    | missed => trivial
    | leading f begun =>
      rw [hp] at hphase
      exact ⟨hphase.1, hphase.2.1.trans hg.completed.symm, hg.flights f begun hphase.2.2⟩
    | waiting f begun r =>
      rw [hp] at hphase
      exact ⟨hphase.1, hg.flights f begun hphase.2.1, hg.runs r begun hphase.2.2⟩
    | returned f begun res =>
      rw [hp] at hphase
      exact ⟨hphase.1, hg.flights f begun hphase.2.1, hphase.2.2⟩
    | following f =>
      rw [hp] at hphase
      obtain ⟨begun, harrived, hflight⟩ := hphase
      exact ⟨begun, harrived, hg.flights f begun hflight⟩
    | replied reply =>
      rw [hp] at hphase
      exact hphase

theorem grows_of_eq (hcompleted : h'.completed = h.completed) (hflights : h'.flights = h.flights)
    (hruns : h'.runs = h.runs) : Grows h h' where
  completed := hcompleted
  flights f begun hf := by
    rw [FlightAt, hflights]
    exact hf
  runs r begun hr := by
    rw [RunAt, hruns]
    exact hr

theorem getElem?_append_some {α : Type} {l : List α} {i : Nat} {a : α} (h : l[i]? = some a)
    (more : List α) : (l ++ more)[i]? = some a := by
  rw [List.getElem?_append_left (List.getElem?_eq_some_iff.mp h).1]
  exact h

theorem HeadOk.setQuery (hok : HeadOk h) {i : Nat} {query query' : Query}
    (hi : h.queries[i]? = some query) (hq : QueryOk h query → QueryOk h query') :
      HeadOk (h.setQuery i query') := by
  have hg : Grows h (h.setQuery i query') := grows_of_eq rfl rfl rfl
  refine ⟨hok.version, fun q hmem => ?_, hok.cache, hok.unfinished, hok.finished, hok.runs⟩
  rcases List.mem_or_eq_of_mem_set hmem with hmem | rfl
  · exact (hok.queries q hmem).grow hg
  · exact (hq (hok.queries query (List.mem_of_getElem? hi))).grow hg

theorem QueryOk.withPhase {query : Query} (hq : QueryOk h query) {phase : Phase}
    (hphase : PhaseOk h query phase) : QueryOk h { query with phase := phase } :=
  ⟨hq.arrived, hq.version, by cases phase <;> exact hphase⟩

theorem QueryOk.conclude {query : Query} (hq : QueryOk h query) (z : Zone) {begun : Nat}
    (harrived : query.arrived ≤ begun) {res : Option Served} (hres : ∀ s ∈ res, ServedOk begun s) :
    QueryOk h (query.conclude E z res) := by
  refine hq.withPhase ?_
  cases res with
  | none =>
    change SourceFresh query (query.fallback E z).source
    rw [Query.fallback]
    cases z.fallback with
    | proposal => exact hq.version
    | servfail => exact hq.version
  | some s =>
    obtain ⟨hbegun, hdispatched⟩ := hres s rfl
    exact ⟨hbegun ▸ harrived, Nat.le_trans harrived hdispatched⟩

theorem HeadOk.change (hok : HeadOk h) (hg : Grows h h') (hversion : h'.version = h.version)
    (hqueries : ∀ query ∈ h'.queries, query ∈ h.queries ∨ QueryOk h' query)
    (hcache : ∀ e ∈ h'.cache, e ∈ h.cache ∨
      h.completed ≤ e.served.begun ∧ e.served.begun ≤ e.served.dispatched)
    (hflights : ∀ flight ∈ h'.flights, flight ∈ h.flights ∨
      (flight.result = none → h.completed ≤ flight.begun) ∧
        ∀ s, flight.result = some (some s) → ServedOk flight.begun s)
    (hruns : ∀ run ∈ h'.runs, run ∈ h.runs ∨ run.begun ≤ run.dispatched ∧
      (run.settled = false → h.completed ≤ run.begun)) : HeadOk h' where
  version := by
    rw [hg.completed, hversion]
    exact hok.version
  queries query hmem := (hqueries query hmem).elim (fun hold => (hok.queries query hold).grow hg) id
  cache e hmem := by
    rw [hg.completed]
    exact (hcache e hmem).elim (hok.cache e) id
  unfinished flight hmem := by
    rw [hg.completed]
    exact (hflights flight hmem).elim (hok.unfinished flight) And.left
  finished flight hmem := (hflights flight hmem).elim (hok.finished flight) And.right
  runs run hmem := by
    rw [hg.completed]
    exact (hruns run hmem).elim (hok.runs run) id

theorem HeadOk.join (hok : HeadOk h) {i : Nat} {query : Query} (hi : h.queries[i]? = some query)
    (key : Key) : HeadOk (h.joinFlight i query key) := by
  have hq := hok.queries query (List.mem_of_getElem? hi)
  rw [Head.joinFlight]
  split
  · next f hf =>
    obtain ⟨hlt, hopen, -⟩ := List.findIdx?_eq_some_iff_getElem.mp hf
    rw [Bool.and_eq_true, Option.isNone_iff_eq_none] at hopen
    have hflight := List.getElem?_eq_getElem hlt
    have hbegun := hok.unfinished _ (List.getElem_mem hlt) hopen.2
    exact hok.setQuery hi fun hq => hq.withPhase
      ⟨_, Nat.le_trans hq.arrived hbegun, _, hflight, rfl⟩
  · have hg : Grows h
      { h.setQuery i { query with phase := .leading h.flights.length h.completed } with
        flights := h.flights ++ [⟨key, h.completed, none⟩] } := by
      refine ⟨rfl, ?_, fun r begun hr => hr⟩
      rintro f begun ⟨flight, hf, hbegun⟩
      exact ⟨flight, getElem?_append_some hf _, hbegun⟩
    refine hok.change hg rfl (fun q hmem => ?_) (fun e he => .inl he) (fun flight hmem => ?_)
      (fun run hrun => .inl hrun)
    · rcases List.mem_or_eq_of_mem_set hmem with hmem | rfl
      · exact .inl hmem
      · right
        exact (hq.grow hg).withPhase
          ⟨hq.arrived, rfl, ⟨key, h.completed, none⟩, List.getElem?_concat_length, rfl⟩
    · rcases List.mem_append.mp hmem with hmem | hmem
      · exact .inl hmem
      · rw [List.mem_singleton.mp hmem]
        exact .inr ⟨fun _ => Nat.le_refl _, fun s hs => by cases hs⟩

theorem HeadOk.dispatch (hok : HeadOk h) {i f begun : Nat} {query : Query}
    (hi : h.queries[i]? = some query) (hphase : query.phase = .leading f begun) (key : Key)
    (z : Zone) :
    HeadOk { h.setQuery i { query with phase := .waiting f begun h.runs.length } with
      runs := h.runs ++ [⟨key, z, i, begun, h.completed, false⟩] } := by
  have hq := hok.queries query (List.mem_of_getElem? hi)
  obtain ⟨harrived, hbegun, hflight⟩ := hphase ▸ hq.phase
  have hg : Grows h { h.setQuery i { query with phase := .waiting f begun h.runs.length } with
      runs := h.runs ++ [⟨key, z, i, begun, h.completed, false⟩] } := by
    refine ⟨rfl, fun f begun hf => hf, ?_⟩
    rintro r begun ⟨run, hr, hrun⟩
    exact ⟨run, getElem?_append_some hr _, hrun⟩
  refine hok.change hg rfl (fun q hmem => ?_) (fun e he => .inl he) (fun flight hmem => .inl hmem)
    (fun run hmem => ?_)
  · rcases List.mem_or_eq_of_mem_set hmem with hmem | rfl
    · exact .inl hmem
    · right
      exact (hq.grow hg).withPhase ⟨harrived, hflight, ⟨key, z, i, begun, h.completed, false⟩,
        List.getElem?_concat_length, rfl⟩
  · rcases List.mem_append.mp hmem with hmem | hmem
    · exact .inl hmem
    · rw [List.mem_singleton.mp hmem]
      exact .inr ⟨Nat.le_of_eq hbegun, fun _ => Nat.le_of_eq hbegun.symm⟩

theorem grows_settled {r : Nat} {run : StackRun} (hr : h.runs[r]? = some run) (queries : List Query)
    (cache : List CacheEntry) :
    Grows h { h with
      runs := h.runs.set r { run with settled := true }, queries := queries, cache := cache } := by
  refine ⟨rfl, fun f begun hf => hf, ?_⟩
  rintro r' begun ⟨run', hr', hrun'⟩
  by_cases heq : r = r'
  · subst heq
    cases hr.symm.trans hr'
    exact ⟨_, List.getElem?_set_self (List.getElem?_eq_some_iff.mp hr).1, hrun'⟩
  · exact ⟨run', by rw [← hr']; exact List.getElem?_set_ne heq, hrun'⟩

theorem mem_put {key : Key} {s : Served} {victims : List Key} {e : CacheEntry}
    (he : e ∈ h.put key s victims) : e ∈ h.cache ∨ e.served = s := by
  rw [Head.put] at he
  split at he
  · exact .inl he
  rcases List.mem_append.mp he with he | he
  · have he := (List.mem_filter.mp he).1
    split at he
    · exact .inl (List.mem_filter.mp he).1
    · exact .inl he
  · rw [List.mem_singleton.mp he]
    exact .inr rfl

theorem mem_handOver {r : Nat} {run : StackRun} {res : Option Served} {query : Query}
    (hmem : query ∈ h.handOver r run res) : query ∈ h.queries ∨ ∃ q ∈ h.queries, ∃ f begun,
      q.phase = .waiting f begun r ∧ query = { q with phase := .returned f begun res } := by
  rw [Head.handOver] at hmem
  split at hmem
  · exact .inl hmem
  next q hq =>
  split at hmem
  · next f begun r' hphase =>
    split at hmem
    · next heq =>
      subst heq
      rcases List.mem_or_eq_of_mem_set hmem with hmem | rfl
      · exact .inl hmem
      · exact .inr ⟨q, List.mem_of_getElem? hq, f, begun, hphase, rfl⟩
    · exact .inl hmem
  · exact .inl hmem

theorem HeadOk.settle (hok : HeadOk h) {r : Nat} {run : StackRun} (hr : h.runs[r]? = some run)
    (hunsettled : run.settled = false) (res : StackResponse) (victims : List Key) :
    HeadOk (h.settle E r run res victims) := by
  obtain ⟨hdispatched, hcompleted⟩ := hok.runs run (List.mem_of_getElem? hr)
  have hserved : ∀ s ∈ (translateStackAnswer E run.zone res).map
      (fun a => (⟨a, run.begun, run.dispatched⟩ : Served)), ServedOk run.begun s := by
    intro s hs
    obtain ⟨a, -, rfl⟩ := Option.map_eq_some_iff.mp hs
    exact ⟨rfl, hdispatched⟩
  have hg : Grows h (h.settle E r run res victims) := grows_settled hr _ _
  refine hok.change hg rfl (fun query hmem => ?_) (fun e he => ?_) (fun flight hmem => .inl hmem)
    (fun run' hmem => ?_)
  · rcases mem_handOver hmem with hmem | ⟨q, hq, f, begun, hphase, rfl⟩
    · exact .inl hmem
    · right
      have hqok := hok.queries q hq
      obtain ⟨harrived, hflight, run', hr', hbegun⟩ := hphase ▸ hqok.phase
      cases hr.symm.trans hr'
      exact (hqok.grow hg).withPhase ⟨harrived, hflight, hbegun ▸ hserved⟩
  · rw [Head.settle] at he
    dsimp only at he
    split at he
    · next s hs =>
      rcases mem_put he with he | rfl
      · exact .inl he
      · obtain ⟨hbegun, hle⟩ := hserved _ hs
        exact .inr ⟨hbegun ▸ hcompleted hunsettled, hbegun ▸ hle⟩
    · exact .inl he
  · rcases List.mem_or_eq_of_mem_set hmem with hmem | rfl
    · exact .inl hmem
    · exact .inr ⟨hdispatched, fun hfalse => by cases hfalse⟩

theorem HeadOk.finish (hok : HeadOk h) {i f begun : Nat} {query : Query} {res : Option Served}
    (hi : h.queries[i]? = some query) (hphase : query.phase = .returned f begun res) (z : Zone)
    {flight : Flight} (hf : h.flights[f]? = some flight) :
    HeadOk { h.setQuery i (query.conclude E z res) with
      flights := h.flights.set f { flight with result := some res } } := by
  have hq := hok.queries query (List.mem_of_getElem? hi)
  obtain ⟨harrived, ⟨flight', hf', hbegun⟩, hres⟩ := hphase ▸ hq.phase
  cases hf.symm.trans hf'
  have hg : Grows h { h.setQuery i (query.conclude E z res) with
      flights := h.flights.set f { flight with result := some res } } := by
    refine ⟨rfl, ?_, fun r begun hr => hr⟩
    rintro f' begun' ⟨flight', hf', hbegun'⟩
    by_cases heq : f = f'
    · subst heq
      cases hf.symm.trans hf'
      exact ⟨_, List.getElem?_set_self (List.getElem?_eq_some_iff.mp hf).1, hbegun'⟩
    · exact ⟨flight', by rw [← hf']; exact List.getElem?_set_ne heq, hbegun'⟩
  refine hok.change hg rfl (fun q hmem => ?_) (fun e he => .inl he) (fun flight' hmem => ?_)
    (fun run hrun => .inl hrun)
  · rcases List.mem_or_eq_of_mem_set hmem with hmem | rfl
    · exact .inl hmem
    · exact .inr ((hq.grow hg).conclude z harrived hres)
  · rcases List.mem_or_eq_of_mem_set hmem with hmem | rfl
    · exact .inl hmem
    · refine .inr ⟨nofun, fun s hs => ?_⟩
      rw [Option.some.injEq] at hs
      exact hbegun ▸ hres s hs

def Phase.leads : Phase → Bool
  | .leading _ _ | .waiting _ _ _ | .returned _ _ _ => true
  | .loaded | .missed | .following _ | .replied _ => false

/-- When a rebuild resets the cache no flight is open, and no run is still to settle. -/
def QuietReset (h : Head) : LaneStep → Prop
  | .reset => (∀ query ∈ h.queries, query.phase.leads = false) ∧
    (∀ flight ∈ h.flights, flight.result.isSome = true) ∧ ∀ run ∈ h.runs, run.settled = true
  | _ => True

theorem HeadOk.reset (hok : HeadOk h) (hquiet : QuietReset h .reset) :
    HeadOk { h with cache := [], completed := h.version } := by
  obtain ⟨hleads, hflights, hruns⟩ := hquiet
  refine ⟨Nat.le_refl _, fun query hmem => ?_, fun e he => absurd he List.not_mem_nil,
    fun flight hmem hopen => ?_, hok.finished, fun run hmem =>
      ⟨(hok.runs run hmem).1, fun hun => ?_⟩⟩
  · have hq := hok.queries query hmem
    refine ⟨Nat.le_trans hq.arrived hok.version, hq.version, ?_⟩
    have hphase := hq.phase
    have hlead := hleads query hmem
    cases hp : query.phase with
    | loaded => trivial
    | missed => trivial
    | leading f begun => rw [hp] at hlead; cases hlead
    | waiting f begun r => rw [hp] at hlead; cases hlead
    | returned f begun res => rw [hp] at hlead; cases hlead
    | following f =>
      rw [hp] at hphase
      exact hphase
    | replied reply =>
      rw [hp] at hphase
      exact hphase
  · have hsome := hflights flight hmem
    rw [hopen] at hsome
    cases hsome
  · rw [hruns run hmem] at hun
    cases hun

end Invariant

section Runs

variable {E : Externals} {h h' : Head}

/-- Every reply to a query is from the snapshot it has, which is that of the last rebuild before it
or a later one, or from a run that was dispatched, in a flight that was begun, after that
rebuild. -/
def AnswersFresh (h : Head) : Prop :=
  ∀ query ∈ h.queries, match query.phase with
    | .replied reply => SourceFresh query reply.source
    | _ => True

theorem HeadOk.answersFresh (hok : HeadOk h) : AnswersFresh h := by
  intro query hmem
  have hphase := (hok.queries query hmem).phase
  split
  · next reply hp =>
    rw [hp] at hphase
    exact hphase
  · trivial

theorem HeadOk.next (hok : HeadOk h) {step : LaneStep} (hquiet : QuietReset h step)
    (hnext : h.next E step = some h') : HeadOk h' := by
  cases step with
  | tick seconds =>
    cases hnext
    exact hok.change (grows_of_eq rfl rfl rfl) rfl (fun _ hq => .inl hq) (fun _ he => .inl he)
      (fun _ hf => .inl hf) fun _ hr => .inl hr
  | arrive q =>
    cases hnext
    refine hok.change (grows_of_eq rfl rfl rfl) rfl (fun query hmem => ?_) (fun _ he => .inl he)
      (fun _ hf => .inl hf) fun _ hr => .inl hr
    rcases List.mem_append.mp hmem with hmem | hmem
    · exact .inl hmem
    · rw [List.mem_singleton.mp hmem]
      exact .inr ⟨Nat.le_refl _, hok.version, trivial⟩
  | get i =>
    rw [Head.next] at hnext
    split at hnext
    · cases hnext
    next query hi =>
    split at hnext
    · split at hnext
      · cases hnext
        exact hok.setQuery hi fun hq => hq.withPhase hq.version
      split at hnext
      · next e he =>
        cases hnext
        obtain ⟨hbegun, hdispatched⟩ := hok.cache e (List.mem_of_find?_eq_some he)
        refine hok.setQuery hi fun hq => hq.withPhase ?_
        have harrived := Nat.le_trans hq.arrived hbegun
        exact ⟨harrived, Nat.le_trans harrived hdispatched⟩
      · cases hnext
        exact hok.setQuery hi fun hq => hq.withPhase trivial
    · cases hnext
  | join i =>
    rw [Head.next] at hnext
    split at hnext
    · cases hnext
    next query hi =>
    split at hnext
    · cases hnext
      exact hok.join hi _
    · cases hnext
  | refuse i =>
    rw [Head.next] at hnext
    split at hnext
    · cases hnext
    next query hi =>
    split at hnext
    · next f begun hphase =>
      cases hnext
      refine hok.setQuery hi fun hq => hq.withPhase ?_
      obtain ⟨harrived, -, hflight⟩ := hphase ▸ hq.phase
      exact ⟨harrived, hflight, fun s hs => by cases hs⟩
    · cases hnext
  | dispatch i =>
    rw [Head.next] at hnext
    split at hnext
    · cases hnext
    next query hi =>
    split at hnext
    · next hphase _ =>
      cases hnext
      exact hok.dispatch hi hphase _ _
    · cases hnext
  | deadline i =>
    rw [Head.next] at hnext
    split at hnext
    · cases hnext
    next query hi =>
    split at hnext
    · next f begun r hphase =>
      cases hnext
      refine hok.setQuery hi fun hq => hq.withPhase ?_
      obtain ⟨harrived, hflight, -⟩ := hphase ▸ hq.phase
      exact ⟨harrived, hflight, fun s hs => by cases hs⟩
    · cases hnext
  | respond r res victims =>
    rw [Head.next] at hnext
    split at hnext
    · cases hnext
    next run hr =>
    split at hnext
    · cases hnext
    next hun =>
    cases hnext
    exact hok.settle hr (Bool.not_eq_true _ ▸ hun) res victims
  | lapse r =>
    rw [Head.next] at hnext
    split at hnext
    · cases hnext
    next run hr =>
    cases hnext
    refine hok.change (grows_settled hr _ _) rfl (fun _ hq => .inl hq) (fun _ he => .inl he)
      (fun _ hf => .inl hf) fun run' hmem => ?_
    rcases List.mem_or_eq_of_mem_set hmem with hmem | rfl
    · exact .inl hmem
    · exact .inr ⟨(hok.runs run (List.mem_of_getElem? hr)).1, fun hfalse => by cases hfalse⟩
  | finish i =>
    rw [Head.next] at hnext
    split at hnext
    · cases hnext
    next query hi =>
    split at hnext
    · next hphase _ =>
      split at hnext
      · cases hnext
      next flight hf =>
      cases hnext
      exact hok.finish hi hphase _ hf
    · cases hnext
  | wake i =>
    rw [Head.next] at hnext
    split at hnext
    · cases hnext
    next query hi =>
    split at hnext
    · next hphase _ =>
      split at hnext
      · cases hnext
      next flight hf =>
      obtain ⟨res, hres, rfl⟩ := Option.map_eq_some_iff.mp hnext
      refine hok.setQuery hi fun hq => ?_
      obtain ⟨begun, harrived, flight', hf', hbegun⟩ := hphase ▸ hq.phase
      cases hf.symm.trans hf'
      refine hq.conclude _ harrived fun s hs => ?_
      rw [hs] at hres
      exact hbegun ▸ hok.finished flight (List.mem_of_getElem? hf) s hres
    · cases hnext
  | giveUp i =>
    rw [Head.next] at hnext
    split at hnext
    · cases hnext
    next query hi =>
    split at hnext
    · cases hnext
      exact hok.setQuery hi fun hq => hq.conclude _ (Nat.le_refl _) fun s hs => by cases hs
    · cases hnext
  | store snap =>
    rw [Head.next] at hnext
    split at hnext
    · next heq =>
      cases hnext
      have hg : Grows h { h with snap := snap, version := h.version + 1 } := grows_of_eq rfl rfl rfl
      exact ⟨Nat.le_succ_of_le hok.version, fun q hq => (hok.queries q hq).grow hg, hok.cache,
        hok.unfinished, hok.finished, hok.runs⟩
    · cases hnext
  | reset =>
    rw [Head.next] at hnext
    split at hnext
    · cases hnext
    · cases hnext
      exact hok.reset hquiet

theorem headOk_start (snap : ZoneSnapshot) : HeadOk (.start snap) where
  version := Nat.le_refl _
  queries _ hmem := absurd hmem List.not_mem_nil
  cache _ hmem := absurd hmem List.not_mem_nil
  unfinished _ hmem := absurd hmem List.not_mem_nil
  finished _ hmem := absurd hmem List.not_mem_nil
  runs _ hmem := absurd hmem List.not_mem_nil

/-- As long as no rebuild comes to its end with a flight open or a run still to settle, no query
gets an answer from before the last rebuild ahead of it. -/
theorem answersFresh_along (E : Externals) (snap : ZoneSnapshot) {steps : List LaneStep}
    (hquiet : Along (Head.next E) QuietReset (.start snap) steps) :
    Along (Head.next E) (fun h step => ∀ h' ∈ h.next E step, AnswersFresh h')
      (.start snap) steps := by
  refine Along.of_invariant (I := HeadOk) ?_ ?_ (headOk_start snap) hquiet
  · exact fun h step h' hok hstep hnext => hok.next hstep hnext
  · exact fun h step hok hstep h' hnext => (hok.next hstep hnext).answersFresh

instance (query : Query) (source : Source) : Decidable (SourceFresh query source) :=
  match source with
  | .snapshot => inferInstanceAs (Decidable (_ ≤ _))
  | .stack _ _ => inferInstanceAs (Decidable (_ ≤ _ ∧ _ ≤ _))

instance (h : Head) : Decidable (AnswersFresh h) :=
  haveI : ∀ query : Query, Decidable (match query.phase with
      | .replied reply => SourceFresh query reply.source
      | _ => True) := fun query =>
    match query.phase with
    | .replied reply => inferInstanceAs (Decidable (SourceFresh query reply.source))
    | .loaded | .missed | .leading _ _ | .waiting _ _ _ | .returned _ _ _ | .following _ =>
      .isTrue trivial
  inferInstanceAs (Decidable (∀ query ∈ h.queries, _))

instance (h : Head) (step : LaneStep) : Decidable (QuietReset h step) :=
  match step with
  | .reset => inferInstanceAs (Decidable ((∀ query ∈ h.queries, _) ∧ (∀ flight ∈ h.flights, _) ∧
      ∀ run ∈ h.runs, _))
  | .tick _ | .arrive _ | .get _ | .join _ | .refuse _ | .dispatch _ | .deadline _ | .respond _ _ _
  | .lapse _ | .finish _ | .wake _ | .giveUp _ | .store _ => .isTrue trivial

/-- The zone of acme, answered by its stack. -/
def stackSnapshot : ZoneSnapshot :=
  buildSnapshot plain mailConfig { acmeDb with
    zones := [{ acmeRow with answerMode := .stack }]
    activeStacks := [⟨"acme", "_dns".toList, none⟩] }

def askWww : LaneStep :=
  .arrive ⟨"www.acme.example".toList, typeA⟩

/-- The stack answers with an address. -/
def answerWww : StackResponse :=
  .res .absent (.items [some "www.acme.example. 60 IN A 203.0.113.9".toList]) .absent

def rebuildSteps : List LaneStep :=
  [.store stackSnapshot, .reset]

theorem answersFresh_rebuiltAfter :
    Along (Head.next plain) (fun h step => ∀ h' ∈ h.next plain step, AnswersFresh h')
      (.start stackSnapshot)
      ([askWww, .get 0, .join 0, .dispatch 0, askWww, .get 1, .join 1, .respond 0 answerWww [],
        .finish 0,
        .wake 1] ++ rebuildSteps ++ [askWww, .get 2, .join 2, .dispatch 2, .respond 1 answerWww [],
        .finish 2, askWww, .get 3]) :=
  answersFresh_along plain stackSnapshot (by decide +kernel)

/-- A run from before the rebuild settles behind it, and the next query gets its answer. -/
theorem not_answersFresh_lateRun :
    ¬ Along (Head.next plain) (fun h step => ∀ h' ∈ h.next plain step, AnswersFresh h')
      (.start stackSnapshot)
      ([askWww, .get 0, .join 0, .dispatch 0] ++ rebuildSteps ++
        [.respond 0 answerWww [], .finish 0, askWww, .get 1]) := by
  decide

end Runs

end ThanksComputer.Dns

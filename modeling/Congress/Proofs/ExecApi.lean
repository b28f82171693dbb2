import Congress.ExecApi

/-!
# Requests of API actions

If all the rows that are read can be handled, then an evaluation makes one request for each row of a
configured endpoint that the last evaluation did not find (`evaluateAndExecuteActions_spec`). A row that
cannot be handled ends an evaluation before what it has read is kept: the rows before it are executed
again, those behind it never (`not_evaluateAndExecuteActions_once`).
-/

namespace Congress

open Lib

set_option linter.unusedSectionVars false

variable {D J : Type} [DecidableEq D] {py : PyValues D J} {m : ExecApiManager D}

/-- The row can be read, and it has a method if its endpoint is configured. -/
structure DbRow.WellFormed (py : PyValues D J) (m : ExecApiManager D) (row : DbRow D) : Prop where
  body : (py.dumps row.body).isSome
  parameters : (py.dumps row.parameters).isSome
  headers : (py.dumps row.headers).isSome
  hashable : py.hashable row.endpoint ∧ py.hashable row.path ∧ py.hashable row.method
  method : ∀ name, py.str row.endpoint = some name → name ∈ m.endpoints → (py.str row.method).isSome

/-- If the database answers, all of the rows are well formed. -/
def ExecApiCall.Handled (m : ExecApiManager D) (call : ExecApiCall py) : Prop :=
  call.Answered → ∀ ts dbRows dbRow, call.tables = some ts → .rows dbRows ∈ ts → dbRow ∈ dbRows →
    dbRow.WellFormed py m

/-- The last call that the database answered has read the row. -/
def ShownBefore (before : List (ExecApiCall py)) (row : ExecApiRow D) : Prop :=
  ∃ earlier call later, before = earlier ++ call :: later ∧ call.Answered
    ∧ (∀ c ∈ later, ¬ c.Answered) ∧ Shows py call.tables row

theorem DbRow.WellFormed.toStrRow {dbRow : DbRow D} (h : dbRow.WellFormed py m) :
    ∃ row, dbRow.toStrRow py = some row ∧ row.hashable py ∧ (m.rowRequest py row).isSome := by
  obtain ⟨body, hbody⟩ := Option.isSome_iff_exists.1 h.body
  obtain ⟨parameters, hparameters⟩ := Option.isSome_iff_exists.1 h.parameters
  obtain ⟨headers, hheaders⟩ := Option.isSome_iff_exists.1 h.headers
  refine ⟨⟨dbRow.endpoint, dbRow.path, dbRow.method, body, parameters, headers⟩, ?_, ?_, ?_⟩
  · simp [DbRow.toStrRow, hbody, hparameters, hheaders]
  · simpa [ExecApiRow.hashable, and_assoc] using h.hashable
  · unfold ExecApiManager.rowRequest ExecApiManager.endpoint
    rcases hstr : py.str dbRow.endpoint with _ | name
    · rfl
    · rcases hurl : m.endpoints.lookup name with _ | url
      · simp [hurl]
      · have hmem := h.method name hstr (AList.lookup_isSome.1 (by rw [hurl]; rfl))
        obtain ⟨method, hmethod⟩ := Option.isSome_iff_exists.1 hmem
        simp [hurl, hmethod]

theorem mapM_some {A B : Type*} {f : A → Option B} : ∀ (as : List A), (∀ a ∈ as, (f a).isSome) →
    ∃ bs, as.mapM f = some bs ∧ ∀ b, b ∈ bs ↔ ∃ a ∈ as, f a = some b
  | [], _ => ⟨[], rfl, by simp⟩
  | a :: as, h => by
    obtain ⟨b, hb⟩ := Option.isSome_iff_exists.1 (h a (List.mem_cons_self ..))
    obtain ⟨bs, hbs, hmem⟩ := mapM_some as fun a ha => h a (List.mem_cons_of_mem _ ha)
    refine ⟨b :: bs, by simp [List.mapM_cons, hb, hbs], fun c => ?_⟩
    simp [hmem, hb, eq_comm]

/-- Well-formed tables are read, and give the rows of all of them. -/
theorem foldlM_readTable : ∀ (ts : List (TableRead D)) (acc : Finset (ExecApiRow D)), .failed ∉ ts →
    (∀ dbRows dbRow, .rows dbRows ∈ ts → dbRow ∈ dbRows → dbRow.WellFormed py m) →
    ∃ rows, ts.foldlM (readTable py) acc = some rows ∧ ∀ row, row ∈ rows ↔ row ∈ acc
      ∨ ∃ dbRows dbRow, .rows dbRows ∈ ts ∧ dbRow ∈ dbRows ∧ dbRow.toStrRow py = some row
  | [], acc, _, _ => ⟨acc, rfl, by simp⟩
  | t :: ts, acc, hfailed, hrows => by
    have ih := fun acc => foldlM_readTable ts acc (fun h => hfailed (List.mem_cons_of_mem _ h))
      fun dbRows dbRow h => hrows dbRows dbRow (List.mem_cons_of_mem _ h)
    rcases t with dbRows | _ | _
    · have hwell := fun dbRow => hrows dbRows dbRow (List.mem_cons_self ..)
      obtain ⟨strRows, hstr, hmem⟩ := mapM_some (f := DbRow.toStrRow py) dbRows
        fun dbRow h => by
          obtain ⟨row, hrow, -⟩ := (hwell dbRow h).toStrRow
          rw [hrow]
          rfl
      have hhash : ∀ row ∈ strRows, row.hashable py = true := by
        intro row hrow
        obtain ⟨dbRow, hdb, he⟩ := (hmem row).1 hrow
        obtain ⟨row', hrow', hh, -⟩ := (hwell dbRow hdb).toStrRow
        cases he.symm.trans hrow'
        exact hh
      obtain ⟨rows, hread, hiff⟩ := ih (acc ∪ strRows.toFinset)
      refine ⟨rows, ?_, fun row => ?_⟩
      · have hone : readTable py acc (.rows dbRows) = some (acc ∪ strRows.toFinset) := by
          simpa [readTable, hstr] using hhash
        rw [List.foldlM_cons, hone]
        exact hread
      · rw [hiff, Finset.mem_union, List.mem_toFinset, hmem, or_assoc]
        refine or_congr_right ?_
        constructor
        · rintro (⟨dbRow, h, he⟩ | ⟨dbRows', dbRow, h, h', he⟩)
          · exact ⟨dbRows, dbRow, List.mem_cons_self .., h, he⟩
          · exact ⟨dbRows', dbRow, List.mem_cons_of_mem _ h, h', he⟩
        · rintro ⟨dbRows', dbRow, h, h', he⟩
          rcases List.mem_cons.1 h with h | h
          · cases h
            exact .inl ⟨dbRow, h', he⟩
          · exact .inr ⟨dbRows', dbRow, h, h', he⟩
    · obtain ⟨rows, hread, hiff⟩ := ih acc
      exact ⟨rows, hread, fun row => by simp [hiff]⟩
    · exact absurd (List.mem_cons_self ..) hfailed

theorem foldlM_readTable_failed : ∀ {ts : List (TableRead D)} (acc : Finset (ExecApiRow D)),
    .failed ∈ ts → ts.foldlM (readTable py) acc = none
  | t :: ts, acc, h => by
    rw [List.foldlM_cons]
    rcases hread : readTable py acc t with _ | rows
    · rfl
    · rcases List.mem_cons.1 h with rfl | h
      · cases hread
      · exact foldlM_readTable_failed rows h

/-- What is read is what the tables show. -/
theorem ExecApiCall.Handled.read {call : ExecApiCall py} (h : call.Handled m) (ha : call.Answered) :
    ∃ rows, readAllExecuteTables py call.tables = some rows
      ∧ ∀ row, row ∈ rows ↔ Shows py call.tables row := by
  obtain ⟨ts, hts, hfailed⟩ := ha
  obtain ⟨rows, hread, hiff⟩ := foldlM_readTable (m := m) ts ∅ hfailed
    fun dbRows dbRow => h ⟨ts, hts, hfailed⟩ ts dbRows dbRow hts
  refine ⟨rows, by rw [readAllExecuteTables, hts]; exact hread, fun row => ?_⟩
  rw [hiff]
  constructor
  · rintro (h | ⟨dbRows, dbRow, h⟩)
    · simp at h
    · exact ⟨ts, dbRows, dbRow, hts, h⟩
  · rintro ⟨ts', dbRows, dbRow, hts', h⟩
    cases hts.symm.trans hts'
    exact .inr ⟨dbRows, dbRow, h⟩

theorem ExecApiCall.not_answered {call : ExecApiCall py} (h : ¬ call.Answered)
    (m : ExecApiManager D) : call.requests m = [] ∧ call.after m = m := by
  have hread : readAllExecuteTables py call.tables = none := by
    unfold readAllExecuteTables
    rcases hts : call.tables with _ | ts
    · rfl
    · refine foldlM_readTable_failed ∅ ?_
      by_contra hfailed
      exact h ⟨ts, hts, hfailed⟩
  unfold ExecApiCall.requests ExecApiCall.after ExecApiManager.evaluateAndExecuteActions
  rw [hread]
  exact ⟨rfl, rfl⟩

/-- Rows that can all be handled are gone through, and those of configured endpoints requested. -/
theorem executeExecApiRows_ok : ∀ {rows : List (ExecApiRow D)},
    (∀ row ∈ rows, (m.rowRequest py row).isSome) →
    ∃ requests, m.executeExecApiRows py rows = (if m.enableExecuteAction then requests else [], true)
      ∧ List.Forall₂ (fun row request => m.rowRequest py row = some (some request))
        (rows.filter fun row => (m.endpoint py row).isSome) requests
  | [], _ => ⟨[], by simp [ExecApiManager.executeExecApiRows], .nil⟩
  | row :: rows, h => by
    obtain ⟨requests, hexec, hall⟩ :=
      executeExecApiRows_ok fun row hrow => h row (List.mem_cons_of_mem _ hrow)
    obtain ⟨request, hrequest⟩ := Option.isSome_iff_exists.1 (h row (List.mem_cons_self ..))
    refine ⟨request.toList ++ requests, ?_, ?_⟩
    · rw [ExecApiManager.executeExecApiRows, hrequest]
      dsimp only
      rw [hexec]
      split_ifs <;> simp
    · have hrequest' := hrequest
      unfold ExecApiManager.rowRequest at hrequest'
      rw [List.filter_cons]
      rcases he : m.endpoint py row with _ | url <;> rw [he] at hrequest'
      · cases hrequest'
        exact hall
      · rcases hmethod : py.str row.method with _ | method <;> simp [hmethod] at hrequest'
        obtain rfl := hrequest'
        exact .cons hrequest hall

/-- One evaluation of well-formed tables, where `S` is what the last one has read. -/
theorem ExecApiCall.Handled.step {call : ExecApiCall py} (h : call.Handled m) (ha : call.Answered)
    (S : Finset (ExecApiRow D)) : ∃ rows requests, rows.Nodup
      ∧ (∀ row, row ∈ rows ↔ (m.endpoint py row).isSome ∧ Shows py call.tables row ∧ row ∉ S)
      ∧ List.Forall₂ (fun row request => m.rowRequest py row = some (some request)) rows requests
      ∧ call.requests { m with lastState := S } = (if m.enableExecuteAction then requests else [])
      ∧ ∃ S', call.after { m with lastState := S } = { m with lastState := S' }
        ∧ ∀ row, row ∈ S' ↔ Shows py call.tables row := by
  obtain ⟨new, hread, hnew⟩ := h.read ha
  have hsome : ∀ row ∈ call.order.filter (· ∈ new \ S), (m.rowRequest py row).isSome := by
    intro row hrow
    have hshown := (hnew row).1 (Finset.mem_sdiff.1 (by simpa using (List.mem_filter.1 hrow).2)).1
    obtain ⟨ts, dbRows, dbRow, hts, hrows, hdb, he⟩ := hshown
    obtain ⟨row', he', -, hrequest⟩ := (h ha ts dbRows dbRow hts hrows hdb).toStrRow
    cases he.symm.trans he'
    exact hrequest
  obtain ⟨requests, hexec, hall⟩ := executeExecApiRows_ok (m := { m with lastState := S }) hsome
  refine ⟨_, requests, (call.nodup.filter _).filter _, fun row => ?_, hall, ?_, new, ?_, hnew⟩
  · have := call.covers row
    simp only [List.mem_filter, decide_eq_true_eq, Finset.mem_sdiff, hnew]
    constructor
    · rintro ⟨⟨-, hshows, hS⟩, hendpoint⟩
      exact ⟨hendpoint, hshows, hS⟩
    · rintro ⟨hendpoint, hshows, hS⟩
      exact ⟨⟨this hshows, hshows, hS⟩, hendpoint⟩
  all_goals
    simp only [ExecApiCall.requests, ExecApiCall.after, ExecApiManager.evaluateAndExecuteActions, hread,
      hexec, if_true]

/-- After any calls, the manager has kept the rows that the last call has read. -/
theorem run_after (hm : m.lastState = ∅) : ∀ (calls : List (ExecApiCall py)),
    (∀ call ∈ calls, call.Handled m) → ∃ S, run ExecApiCall.after m calls = { m with lastState := S }
      ∧ ∀ row, row ∈ S ↔ ShownBefore calls row := by
  intro calls
  induction calls using List.reverseRecOn with
  | nil =>
    intro _
    refine ⟨∅, by rw [run_nil, ← hm], fun row => ?_⟩
    simp [ShownBefore]
  | append_singleton calls call ih =>
    intro h
    obtain ⟨S, hrun, hS⟩ := ih fun c hc => h c (List.mem_append_left _ hc)
    have hcall := h call (List.mem_append_right _ (List.mem_singleton_self _))
    rw [run_append, run_cons, run_nil, hrun]
    by_cases ha : call.Answered
    · obtain ⟨-, -, -, -, -, -, S', hafter, hS'⟩ := hcall.step ha S
      refine ⟨S', hafter, fun row => ?_⟩
      rw [hS']
      constructor
      · exact fun hshows => ⟨calls, call, [], rfl, ha, by simp, hshows⟩
      · rintro ⟨earlier, c, later, heq, hc, hlater, hshows⟩
        rcases List.eq_nil_or_concat later with rfl | ⟨later, last, rfl⟩
        · obtain ⟨-, heq⟩ := List.append_inj' heq rfl
          rw [(List.cons.inj heq).1]
          exact hshows
        · have : calls ++ [call] = (earlier ++ c :: later) ++ [last] := by simpa using heq
          obtain ⟨-, heq⟩ := List.append_inj' this rfl
          obtain rfl : call = last := (List.cons.inj heq).1
          exact absurd ha (hlater call (by simp))
    · rw [(ExecApiCall.not_answered ha _).2]
      refine ⟨S, rfl, fun row => ?_⟩
      rw [hS]
      constructor
      · rintro ⟨earlier, c, later, rfl, hc, hlater, hshows⟩
        refine ⟨earlier, c, later ++ [call], by simp, hc, ?_, hshows⟩
        simpa [or_imp, forall_and] using ⟨hlater, ha⟩
      · rintro ⟨earlier, c, later, heq, hc, hlater, hshows⟩
        rcases List.eq_nil_or_concat later with rfl | ⟨later, last, rfl⟩
        · obtain ⟨-, heq⟩ := List.append_inj' heq rfl
          obtain rfl : call = c := (List.cons.inj heq).1
          exact absurd hc ha
        · have : calls ++ [call] = (earlier ++ c :: later) ++ [last] := by simpa using heq
          obtain ⟨rfl, -⟩ := List.append_inj' this rfl
          exact ⟨earlier, c, later, rfl, hc, fun c hc => hlater c (by simp [hc]), hshows⟩

/-- Values of columns: `NULL`, a text, or a date, which is no JSON. -/
inductive ApiColumn
  | null
  | text (s : String)
  | date (s : String)
  deriving DecidableEq

def pyColumns : PyValues ApiColumn String where
  str
    | .text s => some s
    | _ => none
  hashable _ := true
  dumps
    | .null => some "null"
    | .text s => some ("\"" ++ s ++ "\"")
    | .date _ => none
  loads s := if s = "null" then none else some s
  upper s := String.ofList (s.toList.map Char.toUpper)

def novaManager : ExecApiManager ApiColumn :=
  ⟨(AList.singleton "nova" "http://nova"), true, ∅⟩

/-- A row for `nova` with a method, a path and a body. -/
def novaRow (path : String) (method body : ApiColumn) : DbRow ApiColumn :=
  ⟨.text "nova", .text path, method, body, .null, .null⟩

def novaStrRow (path : String) (method : ApiColumn) : ExecApiRow ApiColumn :=
  ⟨.text "nova", .text path, method, "null", "null", "null"⟩

def novaRequest (path : String) : ApiRequest ApiColumn String :=
  ⟨"nova", "http://nova", .text path, "GET", 10, 10, none, none, none⟩

/-- The row `/a` alone. -/
def oneRowCall : ExecApiCall pyColumns where
  tables := some [.wrongColumns, .rows [novaRow "/a" (.text "get") .null]]
  order := [novaStrRow "/a" (.text "get")]
  nodup := by decide
  covers := by
    rintro row ⟨ts, dbRows, dbRow, hts, hrows, hdb, he⟩
    cases hts
    obtain rfl : dbRows = [novaRow "/a" (.text "get") .null] := by simpa using hrows
    obtain rfl : dbRow = novaRow "/a" (.text "get") .null := by simpa using hdb
    cases he
    exact List.mem_singleton_self _

/-- The row `/a`, and a row `/b` without a method, in either order. -/
def nullMethodCall (order : List (ExecApiRow ApiColumn)) (hnodup : order.Nodup)
    (hcovers : ∀ row, row = novaStrRow "/a" (.text "get") ∨ row = novaStrRow "/b" .null →
      row ∈ order) : ExecApiCall pyColumns where
  tables := some [.rows [novaRow "/a" (.text "get") .null, novaRow "/b" .null .null]]
  order := order
  nodup := hnodup
  covers := by
    rintro row ⟨ts, dbRows, dbRow, hts, hrows, hdb, he⟩
    cases hts
    obtain rfl : dbRows = [novaRow "/a" (.text "get") .null, novaRow "/b" .null .null] := by
      simpa using hrows
    rcases (by simpa using hdb : dbRow = novaRow "/a" (.text "get") .null
      ∨ dbRow = novaRow "/b" .null .null) with rfl | rfl
    · cases he
      exact hcovers _ (.inl rfl)
    · cases he
      exact hcovers _ (.inr rfl)

/-- The row `/a`, and a row whose body is a date. -/
def dateCall : ExecApiCall pyColumns where
  tables := some [.rows [novaRow "/a" (.text "get") .null, novaRow "/b" (.text "get") (.date "today")]]
  order := [novaStrRow "/a" (.text "get")]
  nodup := by decide
  covers := by
    rintro row ⟨ts, dbRows, dbRow, hts, hrows, hdb, he⟩
    cases hts
    obtain rfl : dbRows = [novaRow "/a" (.text "get") .null,
      novaRow "/b" (.text "get") (.date "today")] := by simpa using hrows
    rcases (by simpa using hdb : dbRow = novaRow "/a" (.text "get") .null
      ∨ dbRow = novaRow "/b" (.text "get") (.date "today")) with rfl | rfl
    · cases he
      exact List.mem_singleton_self _
    · cases he

end Congress

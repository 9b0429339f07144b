import Cur8or.ClientMain

/-! SQL from the page to the database: which requests the functor of `/query` answers, and which
text reaches SQLite. -/
namespace ClientSql

open CxxLibrary PosixPath UtilitiesAdaptors PathResolver HttpResponses MessageProcessing
open SqliteRanges SqliteJson ClientMain

variable {env : Environment}

def SqlFails (env : Environment) (sql : Bytes) : Prop :=
  (env.prepare sql).1 ≠ sqliteOk ∨
    (sqlite3Step (sqlite3Reset (env.prepare sql).2)).1 ≠ sqliteDone ∧
    (sqlite3Step (sqlite3Reset (env.prepare sql).2)).1 ≠ sqliteRow

/-- The rows of the text come to an end, if it gets as far as rows. -/
def Ends (env : Environment) (sql : Bytes) : Prop :=
  (env.prepare sql).1 = sqliteOk → ∀ c, (env.prepare sql).2 = some c →
    ∃ rows terminal, (c.later 0).outcomes = .ending rows terminal

inductive Verdict where
  | failure (code : ResultCode)
  | result (names : List Bytes) (rows : List (List Cell)) (terminal : ResultCode)
  | never

/-- What SQLite makes of a text. A text without a statement prepares to a null pointer, which
every call but the preparation refuses. -/
def verdict (env : Environment) (sql : Bytes) : Verdict :=
  if (env.prepare sql).1 ≠ sqliteOk then .failure (env.prepare sql).1
  else
    match (env.prepare sql).2 with
    | none => .failure sqliteMisuse
    | some c =>
      match (c.later 0).outcomes with
      | .ending rows terminal =>
        if Fails rows terminal then .failure terminal
        else .result (c.later 0).names rows terminal
      | .endless _ => .never

theorem prepareStatement_error {sql : Bytes} (h : (env.prepare sql).1 ≠ sqliteOk) :
    prepareStatement env sql =
      .error ⟨(env.prepare sql).1, env.errstr (env.prepare sql).1⟩ := if_neg h

theorem prepareStatement_ok {sql : Bytes} (h : (env.prepare sql).1 = sqliteOk) :
    prepareStatement env sql = .ok (env.prepare sql).2 := if_pos h

/-- Where the cursor of the statement stood before makes no difference. -/
theorem runSql_eq (env : Environment) (sql : Bytes) :
    runSql env sql = match verdict env sql with
      | .failure code => some (.error ⟨code, env.errstr code⟩)
      | .result names rows terminal => some (.ok (resultJson env.errstr names rows terminal))
      | .never => none := by
  unfold verdict
  by_cases hok : (env.prepare sql).1 = sqliteOk
  · rw [if_neg (not_not_intro hok), runSql, prepareStatement_ok hok]
    cases (env.prepare sql).2 with
    | none => rfl
    | some c =>
      dsimp only
      cases ho : (c.later 0).outcomes with
      | endless row => rw [evaluateJson_endless env.errstr ho, Option.map_none]
      | ending rows terminal =>
        dsimp only
        by_cases hf : Fails rows terminal
        · rw [evaluateJson_fails env.errstr ho hf, if_pos hf, Option.map_some]
        · rw [evaluateJson_ends env.errstr ho hf, if_neg hf, Option.map_some]
  · rw [if_pos hok, runSql, prepareStatement_error hok]

theorem ends_iff (env : Environment) (sql : Bytes) : Ends env sql ↔ verdict env sql ≠ .never := by
  unfold verdict
  by_cases hok : (env.prepare sql).1 = sqliteOk
  · rw [if_neg (not_not_intro hok)]
    cases hs : (env.prepare sql).2 with
    | none => simp [Ends, hs]
    | some c =>
      dsimp only
      cases ho : (c.later 0).outcomes with
      | endless row => simp [Ends, hs, hok, ho]
      | ending rows terminal =>
        dsimp only
        refine iff_of_true ?_ ?_
        · intro _ d hd
          obtain rfl := Option.some.inj (hs.symm.trans hd)
          exact ⟨rows, terminal, ho⟩
        · split <;> simp
  · simp [Ends, hok]

theorem sqlFails_iff (env : Environment) (sql : Bytes) :
    SqlFails env sql ↔ ∃ code, verdict env sql = .failure code := by
  unfold verdict
  by_cases hok : (env.prepare sql).1 = sqliteOk
  · rw [if_neg (not_not_intro hok), SqlFails]
    cases hs : (env.prepare sql).2 with
    | none => simp [sqlite3Reset, sqlite3Step, sqliteMisuse, sqliteDone, sqliteRow]
    | some c =>
      simp only [hok, ne_eq, not_true_eq_false, false_or, sqlite3Reset, sqlite3Step]
      cases ho : (c.later 0).outcomes with
      | endless row =>
        have hstep := Cursor.step_row (c := c.reset) (r := row 0) (by
          rw [c.reset_execute, ho, Outcomes.at])
        simp [hstep]
      | ending rows terminal =>
        cases rows with
        | nil =>
          have hstep := Cursor.step_code (c := c.reset) (Script.outcomes_code ho (le_refl 0))
          have hne := Script.terminal_ne ho
          simp only [hstep, hne, not_false_eq_true, and_true]
          by_cases hdone : terminal = sqliteDone
          · simp [hdone, Fails]
          · simp [hdone, Fails]
        | cons r rest =>
          have hstep := Cursor.step_row (c := c.reset) (Script.outcomes_row ho (Nat.succ_pos _))
          simp [hstep, Fails]
  · simp [SqlFails, hok]

def AnswersQuery (env : Environment) (data : StringView) (run : Run) : Prop :=
  run.exit = .ok () ∧ ∃ postValues, KeyValueAdaptor.standard.call data = .ok postValues ∧
    match env.lookup.find postValues (text "sql") with
    | none => ∃ message, run.returns = [.error message]
    | some entry =>
      (SqlFails env entry.2 → ∃ message, run.returns = [.error message]) ∧
      (¬ SqlFails env entry.2 → ∃ json, run.returns = [.data json])

theorem querySql_eq (lookup : MultimapFind Bytes Bytes) {data : StringView} {postValues : MapType}
    (h : KeyValueAdaptor.standard.call data = .ok postValues) :
    querySql lookup data = match lookup.find postValues (text "sql") with
      | none => .error .pastTheEnd
      | some entry => .ok entry.2 := by
  cases hfind : lookup.find postValues (text "sql") with
  | none => simp only [querySql, h, hfind]
  | some entry => simp only [querySql, h, hfind]

/-- Some segment of the text that the adaptor still visits holds the key. -/
def CarriesSql (data : StringView) : Prop :=
  ∃ seg ∈ (data.bytes.splitOn '&'.toUInt8).take (KeyValueAdaptor.standard.passes data),
    seg = text "sql" ∨ text "sql=" <+: seg

theorem carriesSql_iff {data : StringView} {postValues : MapType}
    (h : KeyValueAdaptor.standard.call data = .ok postValues) :
    (∃ entry ∈ postValues, entry.1 = text "sql") ↔ CarriesSql data := by
  obtain rfl := Except.ok.inj (h.symm.trans (KeyValueAdaptor.call_eq _ data))
  exact KeyValueAdaptor.key_mem_iff (a := .standard) (by decide) (by decide)

theorem not_carriesSql_empty : ¬ CarriesSql .empty := by
  unfold CarriesSql
  decide +kernel

def Verdict.run (env : Environment) : Verdict → Run
  | .failure code => ⟨[.error (failureMessage ⟨code, env.errstr code⟩)], .ok ()⟩
  | .result names rows terminal =>
    ⟨[.data (env.serialize (resultJson env.errstr names rows terminal))], .ok ()⟩
  | .never => ⟨[], .error .endless⟩

theorem queryHandler_cases (env : Environment) (captured : Path) (target data : StringView) :
    let run := (queryHandler env captured target data).2
    (¬ CarriesSql data ∧ querySql env.lookup data = .error .pastTheEnd ∧
      run = ⟨[], .error .pastTheEnd⟩) ∨
    (CarriesSql data ∧ ∃ sql, querySql env.lookup data = .ok sql ∧
      run = (verdict env sql).run env) := by
  intro run
  have hcall := KeyValueAdaptor.call_eq .standard data
  have hsql := querySql_eq env.lookup hcall
  have hcarries := carriesSql_iff hcall
  cases hfind : env.lookup.find _ (text "sql") with
  | none =>
    rw [hfind] at hsql
    refine Or.inl ⟨?_, hsql, by simp only [run, queryHandler, hsql]⟩
    rw [← hcarries]
    rintro ⟨entry, hmem, hkey⟩
    exact env.lookup.missing hfind entry hmem hkey
  | some entry =>
    rw [hfind] at hsql
    refine Or.inr ⟨hcarries.mp ⟨entry, env.lookup.found hfind⟩, entry.2, hsql, ?_⟩
    have hrun := runSql_eq env entry.2
    cases hv : verdict env entry.2 with
    | failure code | result names rows terminal | never =>
      rw [hv] at hrun
      simp only [run, queryHandler, hsql, hrun, Verdict.run]

theorem answersQuery_iff {data : StringView} {sql : Bytes} {run : Run}
    (h : querySql env.lookup data = .ok sql) :
    AnswersQuery env data run ↔ run.exit = .ok () ∧
      (SqlFails env sql → ∃ message, run.returns = [.error message]) ∧
      (¬ SqlFails env sql → ∃ json, run.returns = [.data json]) := by
  have hcall := KeyValueAdaptor.call_eq .standard data
  rw [querySql_eq env.lookup hcall] at h
  cases hfind : env.lookup.find _ (text "sql") with
  | none =>
    rw [hfind] at h
    cases h
  | some entry =>
    rw [hfind] at h
    obtain rfl := Except.ok.inj h
    simp [AnswersQuery, hcall, hfind]

theorem queryHandler_answers_iff (env : Environment) (captured : Path)
    (target data : StringView) :
    AnswersQuery env data (queryHandler env captured target data).2 ↔
      CarriesSql data ∧ ∀ sql, querySql env.lookup data = .ok sql → Ends env sql := by
  rcases queryHandler_cases env captured target data with ⟨hno, _, hrun⟩ | ⟨hc, sql, hsql, hrun⟩
  · rw [hrun]
    refine iff_of_false ?_ fun h => hno h.1
    rintro ⟨hexit, _⟩
    cases hexit
  · have hfails := sqlFails_iff env sql
    have hends : (∀ s, querySql env.lookup data = .ok s → Ends env s) ↔ Ends env sql :=
      ⟨fun h => h sql hsql, fun h s hs => Except.ok.inj (hsql.symm.trans hs) ▸ h⟩
    rw [hrun, answersQuery_iff hsql, hends, ends_iff, hfails]
    cases hv : verdict env sql with
    | failure code | result names rows terminal | never => simp [Verdict.run, hc]

/-- Only a POST that carries SQL whose rows end is answered by the functor of `/query`. -/
theorem query_answered_iff (env : Environment) (host : Host) (residue : Residue)
    {request : Request} (hs : supportedOperation (client env) request.target = .ok true)
    (hk : routeKey request.target.bytes = text "query")
    (hm : handledVerb request.method = true) :
    (∃ run, (process host residue (client env) request).handler = some run ∧
      AnswersQuery env (queryData request) run) ↔
    request.method = .post ∧ CarriesSql request.body ∧
      ∀ sql, querySql env.lookup request.body = .ok sql → Ends env sql := by
  obtain ⟨program, hfind, hprocess⟩ := process_dispatched host residue request
    (supportedOperation_iff.mp hs) hm
  rw [hk, client_find, if_pos rfl] at hfind
  obtain rfl := Option.some.inj hfind
  have hanswers := queryHandler_answers_iff env [] request.target (queryData request)
  have hrun : (∃ run, (process host residue (client env) request).handler = some run ∧
      AnswersQuery env (queryData request) run) ↔ CarriesSql (queryData request) ∧
        ∀ sql, querySql env.lookup (queryData request) = .ok sql → Ends env sql := by
    rw [← hanswers, hprocess]
    constructor
    · rintro ⟨run, hsome, ha⟩
      obtain rfl := Option.some.inj hsome
      exact ha
    · intro ha
      exact ⟨_, rfl, ha⟩
  rw [hrun]
  cases hv : request.method with
  | post => simp [queryData, hv]
  | get => simp [queryData, hv, not_carriesSql_empty]
  | head => simp [queryData, hv, not_carriesSql_empty]
  | other code => simp [hv, handledVerb] at hm

theorem query_answered_iff_select :
    ∃ run, (process emptyHost id (client shortNames)
      ⟨.post, .ofText "/query", 11, true, .ofText "a=b&sql=select 1"⟩).handler = some run ∧
      AnswersQuery shortNames (.ofText "a=b&sql=select 1") run := by
  refine (query_answered_iff shortNames emptyHost id ?_ ?_ rfl).mpr ⟨rfl, ?_, ?_⟩
  · decide +kernel
  · decide +kernel
  · unfold CarriesSql
    decide +kernel
  · rintro _ _ _ c hc
    obtain rfl := Option.some.inj hc
    exact ⟨_, _, rfl⟩

/-- Nothing is found in the empty data of a GET, and the iterator is followed all the same. -/
theorem query_get_undefined :
    supportedOperation (client shortNames) (.ofText "/query") = .ok true ∧
    (process emptyHost id (client shortNames)
      ⟨.get, .ofText "/query", 11, true, .empty⟩).handler = some ⟨[], .error .pastTheEnd⟩ ∧
    ¬ AnswersQuery shortNames .empty ⟨[], .error .pastTheEnd⟩ := by
  refine ⟨by decide +kernel, by decide +kernel, ?_⟩
  rintro ⟨h, _⟩
  cases h

/-- The body carries the text unchanged to SQLite, under one key. -/
def CarriesText (body : StringView) (s : Bytes) : Prop :=
  (∃ postValues, KeyValueAdaptor.standard.call body = .ok postValues ∧
    ∃ entry, postValues.filter (fun e => e.1 = text "sql") = [entry]) ∧
  ∀ lookup, querySql lookup body = .ok s

theorem notMem_querySql {lookup : MultimapFind Bytes Bytes} {body : StringView} {s : Bytes}
    (h : querySql lookup body = .ok s) : '&'.toUInt8 ∉ s := by
  rw [querySql_eq _ (KeyValueAdaptor.call_eq .standard body)] at h
  split at h
  · cases h
  · next entry hfind =>
    obtain ⟨hentry, _⟩ := lookup.found hfind
    obtain ⟨seg, hseg, rfl⟩ := KeyValueAdaptor.segment_of_mem_entries hentry
    obtain rfl := Except.ok.inj h
    exact KeyValueAdaptor.notMem_entryOf_value (a := .standard)
      (mem_splitOn (List.mem_of_mem_take hseg)).1

theorem page_values {s : Bytes} {body : StringView} (hbody : body.bytes = text "sql=" ++ s)
    (h : '&'.toUInt8 ∉ s) : KeyValueAdaptor.standard.call body = .ok [(text "sql", s)] := by
  have hall : '&'.toUInt8 ∉ body.bytes := by
    rw [hbody, List.mem_append]
    rintro (hkey | hs)
    · exact absurd hkey (by decide)
    · exact h hs
  have hcount : body.count '&'.toUInt8 = 0 := List.count_eq_zero_of_not_mem hall
  have hpasses : KeyValueAdaptor.standard.passes body = 1 := by
    change (narrowInt (body.count '&'.toUInt8) + 1).toNat = 1
    rw [hcount]
    rfl
  have hsplit : body.bytes.splitOn KeyValueAdaptor.standard.pairSeparator = [body.bytes] :=
    List.splitOn_eq_singleton hall
  have hne : body.bytes ≠ [] := by
    rw [hbody]
    simp [text]
  have hentry : KeyValueAdaptor.standard.entryOf body.bytes = (text "sql", s) := by
    have hkey : KeyValueAdaptor.standard.keyValueSeparator ∉ text "sql" := by decide
    rw [hbody]
    exact KeyValueAdaptor.entryOf_append hkey
  rw [KeyValueAdaptor.call_eq, hpasses, hsplit, KeyValueAdaptor.entries,
    KeyValueAdaptor.lastEntries, if_neg hne, hentry]

theorem page_text_agrees_iff {s : Bytes} {body : StringView}
    (hbody : body.bytes = text "sql=" ++ s) : CarriesText body s ↔ '&'.toUInt8 ∉ s := by
  constructor
  · intro ⟨_, hsql⟩
    exact notMem_querySql (hsql .first)
  · intro hmem
    have hvalues := page_values hbody hmem
    refine ⟨⟨_, hvalues, (text "sql", s), by simp⟩, ?_⟩
    intro lookup
    have hfind := lookup.eq_of_unique (m := [(text "sql", s)]) (e := (text "sql", s)) (by simp)
      (fun d hd _ => List.mem_singleton.mp hd)
    rw [querySql_eq _ hvalues, hfind]

theorem page_text_agrees_iff_equals :
    CarriesText (.ofText "sql=select '50%' = sql=") (text "select '50%' = sql=") :=
  (page_text_agrees_iff (by decide)).mpr (by decide)

theorem page_text_cut :
    querySql .first (.ofText "sql=select 6&3") = .ok (text "select 6") ∧
      ¬ CarriesText (.ofText "sql=select 6&3") (text "select 6&3") := by
  have hcut : querySql .first (.ofText "sql=select 6&3") = .ok (text "select 6") := by
    decide +kernel
  refine ⟨hcut, ?_⟩
  rintro ⟨_, h⟩
  have heq := Except.ok.inj (hcut.symm.trans (h .first))
  exact absurd heq (by decide)

end ClientSql

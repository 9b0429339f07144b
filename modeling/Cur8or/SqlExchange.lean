import Cur8or.ClientSql

/-! One SQL text and what comes back for it, from the body of the request to the body of the
response: what the database says is said here without cursors, adaptors and closures. -/
namespace SqlExchange

open CxxLibrary PosixPath UtilitiesAdaptors PathResolver HttpResponses MessageProcessing
open SqliteRanges SqliteJson ClientMain ClientSql

variable {env : Environment}

/-- What a client is told about a text: the code of a failure with SQLite's words for it, or the
whole table. -/
inductive Told (env : Environment) : Verdict → Response → Prop
  | failure {code : ResultCode} {r : Response} : r.status = .badRequest →
      r.contentType = text "text/html" →
      r.body = text "SQL failure, code: " ++ text (toString code.toInt) ++ text " - " ++
        env.errstr code ++ text "\n" → Told env (.failure code) r
  | table {names : List Bytes} {rows : List (List Cell)} {terminal : ResultCode} {r : Response} :
      r.status = .ok → r.contentType = text "application/json" →
      r.body = env.serialize (.object [(text "header", .array (names.map Json.string)),
        (text "values", .array (rows.map fun row => .array (row.map cellJson))),
        (text "status", .object [(text "statusCode", .int64 terminal.toInt64),
          (text "message", .string (env.errstr terminal))])]) →
      Told env (.result names rows terminal) r

structure Exchanged (env : Environment) (request : Request) (sql : Bytes) (handled : Processing) :
    Prop where
  answered : Ends env sql → handled.ended = .returned ∧ ∃ r, handled.responses = [r] ∧
    r.Carries request ∧ r.contentLength = r.body.length ∧ Told env (verdict env sql) r
  endless : ¬ Ends env sql → handled.ended = .endless ∧ handled.responses = []

structure Carries (body : StringView) (sql : Bytes) : Prop where
  read : ∃ seg ∈ (body.bytes.splitOn '&'.toUInt8).take (KeyValueAdaptor.standard.passes body),
    seg = text "sql=" ++ sql
  alone : ∀ seg ∈ body.bytes.splitOn '&'.toUInt8,
    seg = text "sql" ∨ text "sql=" <+: seg → seg = text "sql=" ++ sql

theorem querySql_carries (lookup : MultimapFind Bytes Bytes) {body : StringView} {sql : Bytes}
    (h : Carries body sql) : querySql lookup body = .ok sql := by
  have hkey : KeyValueAdaptor.standard.keyValueSeparator ∉ text "sql" := by decide
  have hentry : KeyValueAdaptor.standard.entryOf (text "sql=" ++ sql) = (text "sql", sql) :=
    KeyValueAdaptor.entryOf_append hkey
  obtain ⟨seg, hseg, rfl⟩ := h.read
  have hmem := KeyValueAdaptor.mem_entries_of_segment (a := .standard) hseg
    (by simp [text]) (by simp [text, KeyValueAdaptor.standard])
  rw [hentry] at hmem
  have hfind : lookup.find (KeyValueAdaptor.standard.entries
      (KeyValueAdaptor.standard.passes body)
      (body.bytes.splitOn KeyValueAdaptor.standard.pairSeparator)) (text "sql") =
        some (text "sql", sql) := by
    apply lookup.eq_of_unique hmem
    intro e he hk
    obtain ⟨other, hother, rfl⟩ := KeyValueAdaptor.segment_of_mem_entries he
    have hsame := h.alone other (List.mem_of_mem_take hother)
      ((KeyValueAdaptor.entryOf_key_iff hkey).mp hk)
    rw [hsame, hentry]
  rw [querySql_eq lookup (KeyValueAdaptor.call_eq _ _), hfind]

/-- What the page sends for a text: everything up to the first separator of pairs is the SQL, as
long as nothing behind it poses as another key. -/
theorem carries_page {body : StringView} {s : Bytes} (hbody : body.bytes = text "sql=" ++ s)
    (hp : 0 < KeyValueAdaptor.standard.passes body)
    (hlater : ∀ seg ∈ (s.splitOn '&'.toUInt8).tail, ¬ (seg = text "sql" ∨ text "sql=" <+: seg)) :
    Carries body (cutBefore '&'.toUInt8 s) := by
  have hkey : '&'.toUInt8 ∉ text "sql=" := by decide
  have hsplit : body.bytes.splitOn '&'.toUInt8 =
      (text "sql=" ++ cutBefore '&'.toUInt8 s) :: (s.splitOn '&'.toUInt8).tail := by
    rw [hbody]
    by_cases h : '&'.toUInt8 ∈ s
    · obtain ⟨hs, hn⟩ := cut_of_mem h
      have hfirst : '&'.toUInt8 ∉ text "sql=" ++ cutBefore '&'.toUInt8 s := by
        rw [List.mem_append, not_or]
        exact ⟨hkey, hn⟩
      rw [splitOn_of_mem h, List.tail_cons]
      conv_lhs => rw [hs, ← List.append_assoc]
      exact List.splitOn_append_cons_self_of_not_mem hfirst _
    · have hall : '&'.toUInt8 ∉ text "sql=" ++ s := by
        rw [List.mem_append, not_or]
        exact ⟨hkey, h⟩
      rw [List.splitOn_eq_singleton hall, List.splitOn_eq_singleton h, cutBefore_of_notMem h]
      rfl
  obtain ⟨n, hn⟩ := Nat.exists_eq_succ_of_ne_zero (Nat.ne_of_gt hp)
  constructor
  · refine ⟨_, ?_, rfl⟩
    rw [hsplit, hn, List.take_succ_cons]
    exact List.mem_cons_self
  · intro seg hseg hk
    rw [hsplit] at hseg
    rcases List.mem_cons.mp hseg with rfl | hseg
    · rfl
    · exact absurd hk (hlater seg hseg)

theorem process_verdict (host : Host) (residue : Residue) {request : Request}
    (ha : Accepted (client env) request.target)
    (hk : routeKey request.target.bytes = text "query") (hm : request.method = .post)
    {sql : Bytes} (hc : Carries request.body sql) :
    Exchanged env request sql (process host residue (client env) request) := by
  obtain ⟨program, hfind, hprocess⟩ := process_dispatched host residue request ha
    (by rw [hm]; rfl)
  rw [hk, client_find, if_pos rfl] at hfind
  obtain rfl := Option.some.inj hfind
  have hdata : queryData request = request.body := by rw [queryData, hm]
  have hsql := querySql_carries env.lookup hc
  have hrun : (QueryProgram.mk [] (queryHandler env)).outcome request.target (queryData request) =
      (verdict env sql).run env := by
    rw [hdata]
    rcases queryHandler_cases env [] request.target request.body with
      ⟨_, hno, _⟩ | ⟨_, other, hother, hrun⟩
    · exact absurd (hsql.symm.trans hno) (by simp)
    · obtain rfl := Except.ok.inj (hsql.symm.trans hother)
      exact hrun
  have hends := ends_iff env sql
  rw [hprocess, hrun]
  cases hv : verdict env sql with
  | failure code =>
    rw [hv] at hends
    refine ⟨fun _ => ⟨rfl, _, rfl, errorResponse_carries .., rfl, ?_⟩, fun h => ?_⟩
    · rw [hv]
      exact .failure rfl rfl rfl
    · exact absurd (hends.mpr (by simp)) h
  | result names rows terminal =>
    rw [hv] at hends
    refine ⟨fun _ => ⟨rfl, _, rfl, dataResponse_carries .., rfl, ?_⟩, fun h => ?_⟩
    · rw [hv]
      exact .table rfl rfl rfl
    · exact absurd (hends.mpr (by simp)) h
  | never => exact ⟨fun h => absurd hv (hends.mp h), fun _ => ⟨rfl, rfl⟩⟩

/-- `xhttp.open("POST", "/query", true)` and `xhttp.send`, as they arrive. -/
def pageRequest (version : ℕ) (keepAlive : Bool) (body : StringView) : Request :=
  ⟨.post, .ofText "/query", version, keepAlive, body⟩

theorem page_accepted (env : Environment) :
    Accepted (client env) (.ofText "/query") ∧
      routeKey (StringView.ofText "/query").bytes = text "query" := by
  have hkey : routeKey (StringView.ofText "/query").bytes = text "query" := by decide +kernel
  refine ⟨⟨by decide +kernel, by decide +kernel, by decide +kernel, ?_⟩, hkey⟩
  rw [hkey, UnorderedMap.contains, client_find, if_pos rfl]
  rfl

end SqlExchange

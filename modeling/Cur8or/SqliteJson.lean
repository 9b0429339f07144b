import Cur8or.SqliteRanges
import Mathlib.Data.List.Forall2

/-! JSON of a table: cells by their declared type, rows as arrays, and one object for the whole
result. A document records the kinds and the widths of what was put into it. -/
namespace SqliteJson

open CxxLibrary SqliteRanges

/-- `boost::json::value`; the members of an object are in insertion order. -/
inductive Json where
  | null
  | int64 (v : Int64)
  | double (d : Double)
  | string (b : Bytes)
  | array (elements : List Json)
  | object (members : List (Bytes × Json))

inductive ColumnType where
  | integer | float | text | blob | null
  deriving DecidableEq

def sqlite3ColumnType (s : Stmt) (column : ℤ) : ColumnType :=
  match sqlite3Column s column with
  | .integer _ => .integer
  | .float _ => .float
  | .text _ => .text
  | .blob _ => .blob
  | .null => .null

/-- The low 32 bits. The accessors are only used at their own type, so that no conversion
between types is needed. -/
def sqlite3ColumnInt (s : Stmt) (column : ℤ) : Int32 :=
  match sqlite3Column s column with
  | .integer v => v.toInt32
  | _ => 0

def sqlite3ColumnDouble (s : Stmt) (column : ℤ) : Double :=
  match sqlite3Column s column with
  | .float d => d
  | _ => 0

def sqlite3ColumnText (s : Stmt) (column : ℤ) : Bytes :=
  match sqlite3Column s column with
  | .text b => b
  | _ => []

/-- SQLite keeps every length below the range of `int`. -/
def sqlite3ColumnBytes (s : Stmt) (column : ℤ) : ℕ := (sqlite3ColumnText s column).length

structure Visitor (β : Type*) where
  int : Int32 → β
  double : Double → β
  text : Bytes → ℕ → β
  nothing : β

def blobNotSupported : Bytes := text ":blob value not supported:"

def ValueField.call {β : Type*} (s : Stmt) (column : ℤ) (visitor : Visitor β) : β :=
  match sqlite3ColumnType s column with
  | .integer => visitor.int (sqlite3ColumnInt s column)
  | .float => visitor.double (sqlite3ColumnDouble s column)
  | .text => visitor.text (sqlite3ColumnText s column) (sqlite3ColumnBytes s column)
  | .blob => visitor.text blobNotSupported blobNotSupported.length
  | .null => visitor.nothing

def ValueFieldVisitor : Visitor Json where
  int value := .int64 value.toInt64
  double value := .double value
  text str count := .string (str.take count)
  nothing := .null

def keyFieldJson (s : Stmt) (column : ℤ) : Json := .string (sqlite3ColumnName s column)

def valueFieldJson (s : Stmt) (column : ℤ) : Json := ValueField.call s column ValueFieldVisitor

/-- What becomes of a cell on its way into a document. -/
def cellJson : Cell → Json
  | .integer v => .int64 v.toInt32.toInt64
  | .float d => .double d
  | .text b => .string b
  | .blob _ => .string blobNotSupported
  | .null => .null

theorem valueFieldJson_eq (s : Stmt) (column : ℤ) :
    valueFieldJson s column = cellJson (sqlite3Column s column) := by
  simp only [valueFieldJson, ValueField.call, sqlite3ColumnType, sqlite3ColumnInt,
    sqlite3ColumnDouble, sqlite3ColumnBytes, sqlite3ColumnText]
  cases sqlite3Column s column with
  | integer v => rfl
  | float d => rfl
  | text b => exact congrArg Json.string (List.take_length)
  | blob b => exact congrArg Json.string (List.take_length)
  | null => rfl

def rowJson (field : Stmt → ℤ → Json) (s : Stmt) (columnCount : ℕ) : Json :=
  .array (forEachField (field s) _ _ (RowIterator.begin_le_end () columnCount))

theorem rowJson_eq (field : Stmt → ℤ → Json) (s : Stmt) (n : ℕ) :
    rowJson field s n = .array ((List.range n).map fun j => field s (j : ℕ)) :=
  congrArg Json.array (forEachField_row (field s) () n)

theorem map_range_getElem {α β : Type*} {l : List α} {f : α → β} {g : ℕ → β}
    (h : ∀ j, ∀ hj : j < l.length, g j = f l[j]) : (List.range l.length).map g = l.map f := by
  apply List.ext_getElem
  · simp
  · intro j hj _
    have hlt : j < l.length := by simpa using hj
    simpa using h j hlt

theorem headerJson_eq (c : Cursor) :
    rowJson keyFieldJson (some c) c.script.names.length =
      .array (c.script.names.map Json.string) := by
  rw [rowJson_eq, map_range_getElem (f := Json.string)]
  intro j hj
  simp [keyFieldJson, sqlite3ColumnName, hj]

theorem valueRowJson_eq {c : Cursor} {r : List Cell} (h : c.On r) :
    rowJson valueFieldJson (some c) c.script.names.length = .array (r.map cellJson) := by
  rw [rowJson_eq, ← h.length_eq, map_range_getElem (f := cellJson)]
  intro j hj
  rw [valueFieldJson_eq, sqlite3Column, h.row_eq]
  simp [hj]

def statusJson (errstr : ResultCode → Bytes) (code : ResultCode) : Json :=
  .object [(text "statusCode", .int64 code.toInt64), (text "message", .string (errstr code))]

/-- `tag_invoke` for a table, whose cached result code and statement move on meanwhile; it has no
result when the rows do not end. -/
def tableJson (errstr : ResultCode → Bytes) (t : Table) (s : Stmt) :
    Option (Json × Table × Stmt) :=
  let header := rowJson keyFieldJson s t.columnCount
  (forEachRow (fun s => rowJson valueFieldJson s t.columnCount) t s).map fun (values, t, s) =>
    (.object [(text "header", header), (text "values", .array values),
      (text "status", statusJson errstr t.lastOpResult)], t, s)

/-- Evaluation followed by conversion, as a caller that keeps the table does. -/
def evaluateJson (errstr : ResultCode → Bytes) (s : Stmt) :
    Option (Except SqliteError Json × Stmt) :=
  match evaluate errstr s with
  | (.error e, s) => some (.error e, s)
  | (.ok table, s) => (tableJson errstr table s).map fun (json, _, s) => (.ok json, s)

/-- The document a result is meant to give, member by member. -/
def resultJson (errstr : ResultCode → Bytes) (names : List Bytes) (rows : List (List Cell))
    (terminal : ResultCode) : Json :=
  .object [(text "header", .array (names.map Json.string)),
    (text "values", .array (rows.map fun r => .array (r.map cellJson))),
    (text "status", .object [(text "statusCode", .int64 terminal.toInt64),
      (text "message", .string (errstr terminal))])]

def resultCalls (rows : List (List Cell)) (terminal : ResultCode) : List Call :=
  .reset :: (List.replicate rows.length (.step sqliteRow) ++ [.step terminal])

def Fails (rows : List (List Cell)) (terminal : ResultCode) : Prop :=
  rows = [] ∧ terminal ≠ sqliteDone

instance (rows : List (List Cell)) (terminal : ResultCode) : Decidable (Fails rows terminal) :=
  inferInstanceAs (Decidable (_ ∧ _))

variable {errstr : ResultCode → Bytes} {rows : List (List Cell)} {terminal : ResultCode}

theorem tableJson_atEnd (errstr : ResultCode → Bytes) {c : Cursor}
    (h : terminal ≠ sqliteRow) :
    tableJson errstr ⟨terminal, c.script.names.length⟩ (some c) = some
      (resultJson errstr c.script.names [] terminal, ⟨terminal, c.script.names.length⟩,
        some c) := by
  have hend : (Table.mk terminal c.script.names.length).atEnd = true := decide_eq_true h
  rw [tableJson, forEachRow_of_atEnd _ hend, headerJson_eq]
  rfl

theorem tableJson_rows (errstr : ResultCode → Bytes) {c : Cursor} {r : List Cell}
    {rest : List (List Cell)} (h : c.script.outcomes = .ending (r :: rest) terminal)
    (hd : c.delivered = 1) (hon : c.On r) :
    tableJson errstr ⟨sqliteRow, c.script.names.length⟩ (some c) = some
      (resultJson errstr c.script.names (r :: rest) terminal,
        ⟨terminal, c.script.names.length⟩,
        some (c.exhausted (r :: rest) terminal rest.length)) := by
  have hvisit : ∀ d s, d.script = c.script → d.On s →
      rowJson valueFieldJson (some d) c.script.names.length = .array (s.map cellJson) := by
    intro d s hs hd
    rw [← hs]
    exact valueRowJson_eq hd
  have hdrop : (r :: rest).drop (c.delivered - 1) = r :: rest := by rw [hd, Nat.sub_self]; rfl
  rw [tableJson, forEachRow_eq h hvisit _ rfl hon hdrop, headerJson_eq]
  rfl

theorem tableJson_endless (errstr : ResultCode → Bytes) {c : Cursor} {r : List Cell}
    (hon : c.On r) {row : ℕ → List Cell} (h : c.script.outcomes = .endless row) (n : ℕ) :
    tableJson errstr ⟨sqliteRow, n⟩ (some c) = none := by
  rw [tableJson, forEachRow_endless _ (atEnd_eq_false.mpr rfl) hon h]
  rfl

def afterwards (c : Cursor) (rows : List (List Cell)) (terminal : ResultCode) : Cursor :=
  { c with
    script := c.later 0
    later := fun n => c.later (n + 1)
    delivered := rows.length
    finished := true
    calls := c.calls ++ resultCalls rows terminal }

theorem evaluateJson_fails (errstr : ResultCode → Bytes) {c : Cursor}
    (h : (c.later 0).outcomes = .ending rows terminal) (hf : Fails rows terminal) :
    evaluateJson errstr (some c) =
      some (.error ⟨terminal, errstr terminal⟩, some (afterwards c rows terminal)) := by
  obtain ⟨rfl, hne⟩ := hf
  rw [evaluateJson, evaluate_code errstr (Script.outcomes_code h (Nat.zero_le _)), if_neg hne]
  dsimp only
  rw [Cursor.spent, afterwards, List.append_assoc]
  rfl

theorem evaluateJson_ends (errstr : ResultCode → Bytes) {c : Cursor}
    (h : (c.later 0).outcomes = .ending rows terminal) (hf : ¬ Fails rows terminal) :
    evaluateJson errstr (some c) = some
      (.ok (resultJson errstr (c.later 0).names rows terminal),
        some (afterwards c rows terminal)) := by
  cases rows with
  | nil =>
    have hdone : terminal = sqliteDone := by
      by_contra hne
      exact hf ⟨rfl, hne⟩
    rw [evaluateJson, evaluate_code errstr (Script.outcomes_code h (Nat.zero_le _)), if_pos hdone]
    have htable := tableJson_atEnd errstr (c := c.spent terminal) (Script.terminal_ne h)
    change (tableJson errstr ⟨terminal, (c.spent terminal).script.names.length⟩
      (some (c.spent terminal))).map _ = _
    rw [htable, Cursor.spent, afterwards, List.append_assoc]
    rfl
  | cons r rest =>
    have hrow : (c.later 0).outcomes.at 0 = .row r := Script.outcomes_row h (Nat.succ_pos _)
    rw [evaluateJson, evaluate_row errstr hrow]
    have htable := tableJson_rows errstr (c := c.started) h rfl (Cursor.started_on hrow)
    change (tableJson errstr ⟨sqliteRow, c.started.script.names.length⟩ (some c.started)).map _ = _
    rw [htable, Cursor.exhausted, Cursor.started, afterwards, resultCalls, List.length_cons,
      List.replicate_succ]
    simp

/-- Rows without end give neither a document nor an error. -/
theorem evaluateJson_endless (errstr : ResultCode → Bytes) {c : Cursor} {row : ℕ → List Cell}
    (h : (c.later 0).outcomes = .endless row) : evaluateJson errstr (some c) = none := by
  have hrow : (c.later 0).outcomes.at 0 = .row (row 0) := by rw [h, Outcomes.at]
  rw [evaluateJson, evaluate_row errstr hrow]
  dsimp only
  rw [tableJson_endless errstr (Cursor.started_on hrow) (c := c.started) h]
  rfl

theorem evaluate_fails_iff (errstr : ResultCode → Bytes) {c : Cursor}
    (h : (c.later 0).outcomes = .ending rows terminal) :
    (evaluate errstr (some c)).1 = .error ⟨terminal, errstr terminal⟩ ↔ Fails rows terminal := by
  cases rows with
  | nil =>
    rw [evaluate_code errstr (Script.outcomes_code h (Nat.zero_le _))]
    by_cases hdone : terminal = sqliteDone
    · simp [hdone, Fails]
    · simp [hdone, Fails]
  | cons r rest =>
    rw [evaluate_row errstr (Script.outcomes_row h (Nat.succ_pos _))]
    simp [Fails]

/-- A result is reported whole: an error before the first row, or every row once and the code
behind the last one; the statement is executed once. -/
theorem evaluateJson_exact (errstr : ResultCode → Bytes) {c : Cursor}
    (h : (c.later 0).outcomes = .ending rows terminal) :
    ((evaluate errstr (some c)).1 = .error ⟨terminal, errstr terminal⟩ ↔
      rows = [] ∧ terminal ≠ sqliteDone) ∧
    (∀ r ∈ rows, (r.map cellJson).length = (c.later 0).names.length) ∧
    ∃ outcome c', evaluateJson errstr (some c) = some (outcome, some c') ∧
      (rows = [] ∧ terminal ≠ sqliteDone → outcome = .error ⟨terminal, errstr terminal⟩) ∧
      (¬ (rows = [] ∧ terminal ≠ sqliteDone) →
        outcome = .ok (resultJson errstr (c.later 0).names rows terminal)) ∧
      c'.calls = c.calls ++ resultCalls rows terminal ∧
      c'.later = fun n => c.later (n + 1) := by
  refine ⟨evaluate_fails_iff errstr h, ?_, ?_⟩
  · intro r hr
    obtain ⟨i, hi, rfl⟩ := List.mem_iff_getElem.mp hr
    rw [List.length_map]
    exact (c.later 0).width _ _ (Script.outcomes_row h hi)
  · by_cases hf : Fails rows terminal
    · exact ⟨_, _, evaluateJson_fails errstr h hf, fun _ => rfl, fun hn => absurd hf hn, rfl, rfl⟩
    · exact ⟨_, _, evaluateJson_ends errstr h hf, fun hn => absurd hn hf, fun _ => rfl, rfl, rfl⟩

def pairs : Script :=
  .ending [text "a", text "b"] [[.integer 1, .null], [.integer 2, .text [0]]] sqliteDone
    (by decide) sqliteDone_ne_row

theorem evaluateJson_exact_pairs :
    ∃ c', evaluateJson (fun _ => []) (some ⟨pairs, fun _ => pairs, 1, false, []⟩) = some
      (.ok (.object [(text "header", .array [.string (text "a"), .string (text "b")]),
        (text "values", .array [.array [.int64 1, .null], .array [.int64 2, .string [0]]]),
        (text "status", .object [(text "statusCode", .int64 101),
          (text "message", .string [])])]), some c') := by
  obtain ⟨_, _, outcome, c', heq, _, hok, _⟩ := evaluateJson_exact (fun _ => [])
    (c := ⟨pairs, fun _ => pairs, 1, false, []⟩) rfl
  refine ⟨c', ?_⟩
  rw [heq, hok (by decide)]
  rfl

/-- The document keeps the datum of the cell; of a blob nothing is asked. -/
def Faithful : Cell → Json → Prop
  | .integer v, j => j = .int64 v
  | .float d, j => j = .double d
  | .text b, j => j = .string b
  | .blob _, _ => True
  | .null, j => j = .null

def RowFaithful (r : List Cell) (j : Json) : Prop :=
  ∃ js, j = .array js ∧ List.Forall₂ Faithful r js

def FitsInt (cell : Cell) : Prop :=
  ∀ v, cell = .integer v → -2 ^ 31 ≤ v.toInt ∧ v.toInt < 2 ^ 31

def Plain : Cell → Prop
  | .integer _ | .text _ | .null => True
  | .float _ | .blob _ => False

theorem narrowed_eq_iff (v : Int64) :
    v.toInt32.toInt64 = v ↔ -2 ^ 31 ≤ v.toInt ∧ v.toInt < 2 ^ 31 := by
  rw [← Int64.toInt_inj, Int32.toInt_toInt64, Int64.toInt_toInt32, Int.bmod_def]
  constructor
  · intro h
    split at h <;> omega
  · intro h
    split <;> omega

theorem faithful_cellJson_iff (cell : Cell) : Faithful cell (cellJson cell) ↔ FitsInt cell := by
  cases cell with
  | integer v =>
    have hinj : Json.int64 v.toInt32.toInt64 = Json.int64 v ↔ v.toInt32.toInt64 = v :=
      ⟨Json.int64.inj, congrArg Json.int64⟩
    have hfits : FitsInt (.integer v) ↔ -2 ^ 31 ≤ v.toInt ∧ v.toInt < 2 ^ 31 :=
      ⟨fun h => h v rfl, fun h w hw => Cell.integer.inj hw ▸ h⟩
    exact hinj.trans ((narrowed_eq_iff v).trans hfits.symm)
  | float d => exact ⟨fun _ v hv => Cell.noConfusion hv, fun _ => rfl⟩
  | text b => exact ⟨fun _ v hv => Cell.noConfusion hv, fun _ => rfl⟩
  | blob b => exact ⟨fun _ v hv => Cell.noConfusion hv, fun _ => trivial⟩
  | null => exact ⟨fun _ v hv => Cell.noConfusion hv, fun _ => rfl⟩

theorem rowFaithful_map_iff (r : List Cell) :
    RowFaithful r (.array (r.map cellJson)) ↔ ∀ cell ∈ r, FitsInt cell := by
  have harray : RowFaithful r (.array (r.map cellJson)) ↔
      List.Forall₂ Faithful r (r.map cellJson) :=
    ⟨fun ⟨_, h, hr⟩ => Json.array.inj h ▸ hr, fun h => ⟨_, rfl, h⟩⟩
  rw [harray, List.forall₂_map_right_iff, List.forall₂_same]
  exact forall₂_congr fun cell _ => faithful_cellJson_iff cell

theorem faithful_determines {a b : Cell} {j : Json} (pa : Plain a) (pb : Plain b)
    (ha : Faithful a j) (hb : Faithful b j) : a = b := by
  cases a with
  | float d => exact pa.elim
  | blob d => exact pa.elim
  | integer v =>
    obtain rfl := ha
    cases b with
    | integer w => exact congrArg Cell.integer (Json.int64.inj hb)
    | float d => exact pb.elim
    | text d => cases hb
    | blob d => exact pb.elim
    | null => cases hb
  | text t =>
    obtain rfl := ha
    cases b with
    | integer w => cases hb
    | float d => exact pb.elim
    | text d => exact congrArg Cell.text (Json.string.inj hb)
    | blob d => exact pb.elim
    | null => cases hb
  | null =>
    obtain rfl := ha
    cases b with
    | integer w => cases hb
    | float d => exact pb.elim
    | text d => cases hb
    | blob d => exact pb.elim
    | null => rfl

theorem rowFaithful_determines {r s : List Cell} {j : Json} (pr : ∀ cell ∈ r, Plain cell)
    (ps : ∀ cell ∈ s, Plain cell) (hr : RowFaithful r j) (hs : RowFaithful s j) : r = s := by
  obtain ⟨js, rfl, hr⟩ := hr
  obtain ⟨js', h, hs⟩ := hs
  obtain rfl := Json.array.inj h
  induction hr generalizing s with
  | nil => exact (List.forall₂_nil_right_iff.mp hs).symm
  | cons ha _ ih =>
    obtain ⟨b, bs, hb, hbs, rfl⟩ := List.forall₂_cons_right_iff.mp hs
    have hhead := faithful_determines (pr _ (List.mem_cons_self)) (ps _ (List.mem_cons_self)) ha hb
    have htail := ih (fun c hc => pr c (List.mem_cons_of_mem _ hc))
      (fun c hc => ps c (List.mem_cons_of_mem _ hc)) rfl hbs
    rw [hhead, htail]

theorem row_faithful_iff {c d : Cursor} {r s : List Cell} (hc : c.On r) (hd : d.On s) :
    (RowFaithful r (rowJson valueFieldJson (some c) c.script.names.length) ∧
      RowFaithful s (rowJson valueFieldJson (some d) d.script.names.length) ∧
      ((∀ cell ∈ r ++ s, Plain cell) → r ≠ s →
        rowJson valueFieldJson (some c) c.script.names.length ≠
          rowJson valueFieldJson (some d) d.script.names.length)) ↔
    ∀ cell ∈ r ++ s, FitsInt cell := by
  rw [valueRowJson_eq hc, valueRowJson_eq hd, rowFaithful_map_iff, rowFaithful_map_iff]
  constructor
  · intro ⟨hr, hs, _⟩ cell hcell
    rcases List.mem_append.mp hcell with h | h
    · exact hr cell h
    · exact hs cell h
  · intro h
    have hr : ∀ cell ∈ r, FitsInt cell := fun cell hm => h cell (List.mem_append_left s hm)
    have hs : ∀ cell ∈ s, FitsInt cell := fun cell hm => h cell (List.mem_append_right r hm)
    refine ⟨hr, hs, ?_⟩
    intro hplain hne heq
    refine hne (rowFaithful_determines (j := .array (r.map cellJson)) ?_ ?_ ?_ ?_)
    · exact fun cell hm => hplain cell (List.mem_append_left s hm)
    · exact fun cell hm => hplain cell (List.mem_append_right r hm)
    · exact (rowFaithful_map_iff r).mpr hr
    · rw [heq]
      exact (rowFaithful_map_iff s).mpr hs

def single (r : List Cell) : Script :=
  .ending (r.map fun _ => text "c") [r] sqliteDone (by simp) sqliteDone_ne_row

/-- Standing on that row, which every later execution delivers again. -/
def standing (r : List Cell) : Cursor :=
  ⟨single r, fun _ => single r, 1, false, [.reset, .step sqliteRow]⟩

theorem standing_on (r : List Cell) : (standing r).On r := ⟨rfl, Nat.one_pos, rfl⟩

theorem row_faithful_iff_standing :
    ∃ c d, RowFaithful [.integer (-1), .null] (rowJson valueFieldJson (some c) 2) ∧
      RowFaithful [.integer 7, .text [0, 97]] (rowJson valueFieldJson (some d) 2) := by
  have h := (row_faithful_iff (standing_on [.integer (-1), .null])
    (standing_on [.integer 7, .text [0, 97]])).mpr (by simp [FitsInt])
  exact ⟨_, _, h.1, h.2.1⟩

/-- An integer just beyond 32 bits and zero share one document. -/
theorem wide_integer_unfaithful :
    let wide : List Cell := [.integer (2 ^ 32)]
    let zero : List Cell := [.integer 0]
    (standing wide).On wide ∧ (standing zero).On zero ∧
      (∀ cell ∈ wide ++ zero, Plain cell) ∧ wide ≠ zero ∧
      ¬ RowFaithful wide (rowJson valueFieldJson (some (standing wide)) 1) ∧
      rowJson valueFieldJson (some (standing wide)) 1 =
        rowJson valueFieldJson (some (standing zero)) 1 := by
  intro wide zero
  have hwide := valueRowJson_eq (standing_on wide)
  have hzero := valueRowJson_eq (standing_on zero)
  refine ⟨standing_on wide, standing_on zero, by simp [wide, zero, Plain], by decide, ?_, ?_⟩
  · intro h
    have hfits := (rowFaithful_map_iff wide).mp (hwide ▸ h) _ (List.mem_singleton_self _)
    exact absurd (hfits _ rfl).2 (by decide)
  · exact hwide.trans hzero.symm

end SqliteJson

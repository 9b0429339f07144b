import Cur8or.ClientSurvival
import Cur8or.SqlExchange

/-! The query page. Every press of its button sends the text typed, and whichever query completes
next rewrites the container of the result; the queries may complete in any order, over a database
that changes, or not reach the server at all. -/
namespace QueryPage

open CxxLibrary UtilitiesAdaptors HttpResponses MessageProcessing SqliteJson ClientMain
open ClientSql ClientSurvival SqlExchange SqliteRanges TransitionSystem

/-- A child of the container; a cell of a table is the value assigned to its text. -/
inductive Node where
  | text (data : Bytes)
  | br
  | table (header : List Bytes) (rows : List (List Bytes))
  deriving DecidableEq

def Node.isElement : Node → Bool
  | .text _ => false
  | .br | .table _ _ => true

/-- What the script relies on: `JSON.parse`, and a value turned into text when it is assigned. -/
structure Browser where
  parse : Bytes → Option Json
  display : Json → Bytes

def lastElementChild : List Node → Option ℕ
  | [] => none
  | node :: rest =>
    match lastElementChild rest with
    | some i => some (i + 1)
    | none => if node.isElement then some 0 else none

theorem lastElementChild_some {nodes : List Node} {i : ℕ} (h : lastElementChild nodes = some i) :
    ∃ node, nodes[i]? = some node ∧ node.isElement = true := by
  induction nodes generalizing i with
  | nil => cases h
  | cons node rest ih =>
    rw [lastElementChild] at h
    cases hrest : lastElementChild rest with
    | some j =>
      rw [hrest] at h
      obtain rfl := Option.some.inj h
      exact ih hrest
    | none =>
      rw [hrest] at h
      cases hnode : node.isElement with
      | true =>
        simp only [hnode, if_true] at h
        obtain rfl := Option.some.inj h
        exact ⟨node, rfl, hnode⟩
      | false => simp [hnode] at h

theorem lastElementChild_none {nodes : List Node} (h : lastElementChild nodes = none) :
    ∀ node ∈ nodes, node.isElement = false := by
  induction nodes with
  | nil => simp
  | cons node rest ih =>
    rw [lastElementChild] at h
    cases hrest : lastElementChild rest with
    | some j => simp [hrest] at h
    | none =>
      simp only [hrest] at h
      intro n hn
      rcases List.mem_cons.mp hn with rfl | hn
      · by_contra hne
        simp [hne] at h
      · exact ih hrest n hn

/-- `while (container.lastElementChild)` -/
def removeElements (nodes : List Node) : List Node :=
  match _h : lastElementChild nodes with
  | some i => removeElements (nodes.eraseIdx i)
  | none => nodes
termination_by nodes.length
decreasing_by
  obtain ⟨node, hi, _⟩ := lastElementChild_some _h
  have hlt := (List.getElem?_eq_some_iff.mp hi).1
  rw [List.length_eraseIdx_of_lt hlt]
  omega

def lf : Byte := 10

def cr : Byte := 13

def textNode (line : Bytes) : List Node := if line = [] then [] else [.text line]

def fragment (line : Bytes) (afterCr : Bool) : Bytes → List Node
  | [] => textNode line
  | b :: rest =>
    if b = lf ∧ afterCr = true then fragment line false rest
    else if b = lf ∨ b = cr then textNode line ++ .br :: fragment [] (b = cr) rest
    else fragment (line ++ [b]) false rest

def innerText (s : Bytes) : List Node := fragment [] false s

/-- A member of what was parsed; of two of one name the later counts. -/
def member (name : Bytes) : Json → Option Json
  | .object members => (members.reverse.find? fun m => m.1 = name).map Prod.snd
  | _ => none

def elements : Json → Option (List Json)
  | .array l => some l
  | _ => none

/-- `processJSONString` up to the last line; what throws leaves nothing to append. -/
def processJSONString (browser : Browser) (responseText : Bytes) : Option Node := do
  let table ← browser.parse responseText
  let header ← (member (text "header") table).bind elements
  let values ← (member (text "values") table).bind elements
  let rows ← values.mapM elements
  some (.table (header.map browser.display) (rows.map fun row => row.map browser.display))

def onDone (browser : Browser) (container : List Node) (answer : ℕ × Bytes) : List Node :=
  let container := removeElements container
  if answer.1 = 200 then container ++ (processJSONString browser answer.2).toList
  else innerText answer.2

structure Typed where
  value : Bytes
  body : StringView
  spelled : body.bytes = text "sql=" ++ value

/-- `completed` is a history: in which world the server processed each query, if it did. -/
structure State where
  container : List Node
  pending : List Typed
  completed : List (Typed × Option World)

/-- `status` and `responseText` of a query that is done; without a response there is neither. -/
def received : List Response → ℕ × Bytes
  | r :: _ => (r.status.code, r.body)
  | [] => (0, [])

def answer (residue : Residue) (q : Typed × Option World) : ℕ × Bytes :=
  received (q.2.elim [] fun w =>
    (process w.host residue (client w.env) (pageRequest 11 true q.1.body)).responses)

inductive Event where
  | querySQL (typed : Typed)
  | done (i : ℕ) (world : Option World)

def Ended (residue : Residue) (typed : Typed) (w : World) : Prop :=
  (process w.host residue (client w.env) (pageRequest 11 true typed.body)).ended ≠ .endless

instance (residue : Residue) (typed : Typed) (w : World) : Decidable (Ended residue typed w) :=
  inferInstanceAs (Decidable (_ ≠ _))

def Enabled (residue : Residue) (s : State) : Event → Prop
  | .querySQL _ => True
  | .done i world => ∃ typed ∈ s.pending[i]?, ∀ w ∈ world, Ended residue typed w

instance (residue : Residue) (s : State) : (e : Event) → Decidable (Enabled residue s e)
  | .querySQL _ => inferInstanceAs (Decidable True)
  | .done _ _ => inferInstanceAs (Decidable (∃ _ ∈ _, ∀ _ ∈ _, _))

def next (browser : Browser) (residue : Residue) (s : State) : Event → State
  | .querySQL typed => { s with pending := s.pending ++ [typed] }
  | .done i world =>
    match s.pending[i]? with
    | some typed =>
      { container := onDone browser s.container (answer residue (typed, world))
        pending := s.pending.eraseIdx i
        completed := s.completed ++ [(typed, world)] }
    | none => s

def page (browser : Browser) (residue : Residue) : System State Event where
  initial := ⟨[], [], []⟩
  Enabled := Enabled residue
  next := next browser residue

instance (browser : Browser) (residue : Residue) (s : State) (e : Event) :
    Decidable ((page browser residue).Enabled s e) := inferInstanceAs (Decidable (Enabled residue s e))

def texts (nodes : List Node) : List Node := nodes.filter fun node => !node.isElement

def remains (answers : List (ℕ × Bytes)) : List Node :=
  match (answers.filter fun a => a.1 ≠ 200).getLast? with
  | some a => texts (innerText a.2)
  | none => []

def shown (browser : Browser) (answers : List (ℕ × Bytes)) : List Node :=
  match answers.getLast? with
  | some a =>
    if a.1 = 200 then remains answers ++ (processJSONString browser a.2).toList
    else innerText a.2
  | none => []

variable {browser : Browser} {residue : Residue} {answers : List (ℕ × Bytes)}

theorem texts_eq_self {nodes : List Node} (h : ∀ node ∈ nodes, node.isElement = false) :
    texts nodes = nodes := by
  apply List.filter_eq_self.mpr
  intro node hnode
  simp [h node hnode]

theorem texts_eraseIdx {nodes : List Node} {i : ℕ} {node : Node} (hi : nodes[i]? = some node)
    (he : node.isElement = true) : texts (nodes.eraseIdx i) = texts nodes := by
  induction nodes generalizing i with
  | nil => cases hi
  | cons n rest ih =>
    cases i with
    | zero =>
      obtain rfl := Option.some.inj hi
      simp [texts, he]
    | succ i =>
      simp only [texts, List.eraseIdx_cons_succ, List.filter_cons] at ih ⊢
      rw [ih hi]

theorem removeElements_eq (nodes : List Node) : removeElements nodes = texts nodes := by
  fun_induction removeElements nodes with
  | case1 nodes i hi ih =>
    obtain ⟨node, hnode, he⟩ := lastElementChild_some hi
    rw [ih, texts_eraseIdx hnode he]
  | case2 nodes hnone => exact (texts_eq_self (lastElementChild_none hnone)).symm

theorem texts_texts (nodes : List Node) : texts (texts nodes) = texts nodes := by
  simp [texts]

theorem processJSONString_table {responseText : Bytes} {node : Node}
    (h : processJSONString browser responseText = some node) : node.isElement = true := by
  simp only [processJSONString, Option.bind_eq_bind, Option.bind_eq_some_iff] at h
  obtain ⟨_, _, _, _, _, _, _, _, h⟩ := h
  obtain rfl := Option.some.inj h
  rfl

theorem texts_remains : texts (remains answers) = remains answers := by
  unfold remains
  split
  · exact texts_texts _
  · rfl

/-- Of what is shown the texts are those of the last failure, whatever came after it. -/
theorem texts_shown : texts (shown browser answers) = remains answers := by
  rcases List.eq_nil_or_concat' answers with rfl | ⟨before, a, rfl⟩
  · rfl
  · by_cases h200 : a.1 = 200
    · have htable : texts (processJSONString browser a.2).toList = [] := by
        cases hp : processJSONString browser a.2 with
        | none => rfl
        | some node => simp [texts, processJSONString_table hp]
      simp only [shown, List.getLast?_concat, if_pos h200]
      rw [texts, List.filter_append, ← texts, ← texts, texts_remains, htable, List.append_nil]
    · simp only [shown, remains, List.getLast?_concat, if_neg h200]
      simp [h200]

theorem remains_success {a : ℕ × Bytes} (h : a.1 = 200) :
    remains (answers ++ [a]) = remains answers := by
  simp [remains, h]

theorem onDone_shown (a : ℕ × Bytes) :
    onDone browser (shown browser answers) a = shown browser (answers ++ [a]) := by
  rw [onDone, removeElements_eq, texts_shown]
  simp only [shown, List.getLast?_concat]
  split
  · next h200 => rw [remains_success h200]
  · rfl

structure Invariant (browser : Browser) (residue : Residue) (s : State) : Prop where
  shown : s.container = shown browser (s.completed.map (answer residue))
  ended : ∀ typed w, (typed, some w) ∈ s.completed → Ended residue typed w

theorem page_inductive : Inductive (page browser residue) (Invariant browser residue) where
  initial := ⟨rfl, by simp [page]⟩
  step := by
    intro s e h he
    cases e with
    | querySQL typed => exact ⟨h.shown, h.ended⟩
    | done i world =>
      obtain ⟨typed, hi, hended⟩ := he
      have hi : s.pending[i]? = some typed := hi
      simp only [page, next, hi]
      refine ⟨?_, ?_⟩
      · simp only [h.shown, onDone_shown, List.map_append, List.map_cons, List.map_nil]
      · intro other w hmem
        rcases List.mem_append.mp hmem with hold | hnew
        · exact h.ended other w hold
        · obtain ⟨rfl, rfl⟩ := Prod.mk.inj (List.mem_singleton.mp hnew)
          exact hended w rfl

/-- A text whose first part reaches the database, whatever SQLite makes of it. -/
structure Sendable (typed : Typed) : Prop where
  passes : 0 < KeyValueAdaptor.standard.passes typed.body
  later : ∀ seg ∈ (typed.value.splitOn '&'.toUInt8).tail,
    ¬ (seg = text "sql" ∨ text "sql=" <+: seg)

theorem mapM_elements {α : Type*} (f : α → List Json) (l : List α) :
    (l.map fun x => Json.array (f x)).mapM elements = some (l.map f) := by
  induction l with
  | nil => rfl
  | cons x l ih => simp [elements, ih]

theorem processJSONString_result {env : Environment} {names : List Bytes}
    {rows : List (List Cell)} {terminal : ResultCode}
    (hparse : browser.parse (env.serialize (resultJson env.errstr names rows terminal)) =
      some (resultJson env.errstr names rows terminal)) :
    processJSONString browser (env.serialize (resultJson env.errstr names rows terminal)) =
      some (.table (names.map fun name => browser.display (.string name))
        (rows.map fun r => r.map fun cell => browser.display (cellJson cell))) := by
  have hheader : member (text "header") (resultJson env.errstr names rows terminal) =
      some (.array (names.map Json.string)) := rfl
  have hvalues : member (text "values") (resultJson env.errstr names rows terminal) =
      some (.array (rows.map fun r => .array (r.map cellJson))) := rfl
  simp only [processJSONString, hparse, Option.bind_eq_bind, Option.bind_some, hheader, hvalues,
    elements, mapM_elements, List.map_map, Function.comp_def]

/-- What the container holds for a verdict, `old` being what stays of an earlier failure. -/
inductive Displays (browser : Browser) (env : Environment) (old : List Node) :
    Verdict → List Node → Prop
  | failure {code : ResultCode} : Displays browser env old (.failure code)
      (innerText (text "SQL failure, code: " ++ text (toString code.toInt) ++ text " - " ++
        env.errstr code ++ text "\n"))
  | table {names : List Bytes} {rows : List (List Cell)} {terminal : ResultCode} :
      Displays browser env old (.result names rows terminal)
        (old ++ [.table (names.map fun name => browser.display (.string name))
          (rows.map fun r => r.map fun cell => browser.display (cellJson cell))])

/-- The page can read back the document of a result. -/
def Readable (browser : Browser) (env : Environment) : Verdict → Prop
  | .failure _ | .never => True
  | .result names rows terminal =>
    browser.parse (env.serialize (resultJson env.errstr names rows terminal)) =
      some (resultJson env.errstr names rows terminal)

theorem shown_told {env : Environment} {v : Verdict} {r : Response} (h : Told env v r)
    (hparse : Readable browser env v) :
    Displays browser env (remains answers) v (shown browser (answers ++ [received [r]])) := by
  rw [shown, List.getLast?_concat]
  cases h with
  | failure hstatus _ hbody =>
    simp only [received, hstatus, hbody]
    exact .failure
  | table hstatus _ hbody =>
    have h200 : (received [r]).1 = 200 := by rw [received, hstatus]; rfl
    have htable := processJSONString_result hparse
    have hreceived : (received [r]).2 = env.serialize (resultJson env.errstr _ _ _) := hbody
    simp only [h200, if_true, remains_success h200, hreceived, htable]
    exact .table

/-- What is on the page is the work of the query that completed last, and of the failure before it;
when the server processed that one, it is what SQLite made of the text typed. -/
structure PageShows (browser : Browser) (residue : Residue) (s : State) : Prop where
  shown : s.container = shown browser (s.completed.map (answer residue))
  verdict : ∀ before typed w, s.completed = before ++ [(typed, some w)] → Sendable typed →
    Readable browser w.env (verdict w.env (cutBefore '&'.toUInt8 typed.value)) →
    Displays browser w.env (remains (before.map (answer residue)))
      (verdict w.env (cutBefore '&'.toUInt8 typed.value)) s.container

def oneRow : Browser where
  parse _ := some (resultJson (fun _ => []) [text "c"] [[.integer 1]] sqliteDone)
  display
    | .string b => b
    | .int64 _ => text "1"
    | _ => []

def refusing : Environment :=
  { shortNames with prepare := fun _ => (1, none), errstr := fun _ => text "SQL logic error" }

def pressedTwice : List Event :=
  [.querySQL ⟨text "select 2", .ofText "sql=select 2", by decide⟩,
    .querySQL ⟨text "select", .ofText "sql=select", by decide⟩,
    .done 1 (some ⟨refusing, emptyHost⟩), .done 0 (some ⟨shortNames, emptyHost⟩)]

end QueryPage

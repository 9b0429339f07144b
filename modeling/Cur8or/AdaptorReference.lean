import Mathlib.Data.List.Forall2
import Cur8or.UtilitiesAdaptors

/-! What the two adaptors are for, said of the split text alone, and how far the loops meet it. -/
namespace AdaptorReference

open CxxLibrary UtilitiesAdaptors

/-- The name ends at the first param sign; a piece without one has no params. -/
inductive Reads (a : ParamPathAdaptor) : Bytes → PathSegment → Prop
  | plain {name : Bytes} : a.paramSign ∉ name → Reads a name (name, [])
  | params {name params : Bytes} : a.paramSign ∉ name →
      Reads a (name ++ a.paramSign :: params) (name, params)

theorem reads_segmentOf (a : ParamPathAdaptor) (piece : Bytes) :
    Reads a piece (a.segmentOf piece) := by
  by_cases h : a.paramSign ∈ piece
  · obtain ⟨hp, hn⟩ := cut_of_mem h
    have hr : Reads a (cutBefore a.paramSign piece ++ a.paramSign :: cutAfter a.paramSign piece)
        (a.segmentOf piece) := Reads.params hn
    rwa [← hp] at hr
  · rw [ParamPathAdaptor.segmentOf, cutBefore_of_notMem h, cutAfter_of_notMem h]
    exact Reads.plain h

theorem reads_iff {a : ParamPathAdaptor} {piece : Bytes} {segment : PathSegment} :
    Reads a piece segment ↔ segment = a.segmentOf piece := by
  constructor
  · intro h
    cases h with
    | plain hn => rw [ParamPathAdaptor.segmentOf, cutBefore_of_notMem hn, cutAfter_of_notMem hn]
    | params hn =>
      obtain ⟨h₁, h₂⟩ := cut_append hn _
      rw [ParamPathAdaptor.segmentOf, h₁, h₂]
  · rintro rfl
    exact reads_segmentOf a piece

structure PathReading (a : ParamPathAdaptor) (path : Bytes) (list : ListType) : Prop where
  pieces : List.Forall₂ (Reads a) (path.splitOn a.pathSeparator).tail list
  length : list.length = path.count a.pathSeparator
  leading : ∀ lead rest, a.pathSeparator ∉ lead → path = lead ++ a.pathSeparator :: rest →
    List.Forall₂ (Reads a) (rest.splitOn a.pathSeparator) list
  empty : ∀ i : ℕ, (path.splitOn a.pathSeparator).tail[i]? = some [] →
    list[i]? = some ([], [])
  trailing : path.getLast? = some a.pathSeparator → list.getLast? = some ([], [])
  bare : a.pathSeparator ∉ path → list = []

theorem segmentOf_nil (a : ParamPathAdaptor) : a.segmentOf [] = ([], []) := rfl

theorem pathReading_pieces (a : ParamPathAdaptor) (path : Bytes) :
    PathReading a path ((a.pieces path).map a.segmentOf) where
  pieces := by
    rw [List.forall₂_map_right_iff]
    exact List.forall₂_same.mpr fun piece _ => reads_segmentOf a piece
  length := by rw [List.length_map, ParamPathAdaptor.length_pieces]
  leading := by
    intro lead rest hl hp
    rw [ParamPathAdaptor.pieces, hp, List.splitOn_append_cons_self_of_not_mem hl, List.tail_cons,
      List.forall₂_map_right_iff]
    exact List.forall₂_same.mpr fun piece _ => reads_segmentOf a piece
  empty := by
    intro i hi
    rw [List.getElem?_map, ParamPathAdaptor.pieces, hi, Option.map_some, segmentOf_nil]
  trailing := by
    intro hl
    obtain ⟨init, hinit⟩ := List.getLast?_eq_some_iff.mp hl
    have htail : (path.splitOn a.pathSeparator).tail =
        (init.splitOn a.pathSeparator).tail ++ [[]] := by
      rw [hinit, List.splitOn_append_cons_self, List.splitOn_nil,
        List.tail_append_of_ne_nil (List.splitOn_ne_nil _ _)]
    rw [ParamPathAdaptor.pieces, htail, List.map_append, List.map_singleton, segmentOf_nil,
      List.getLast?_concat]
  bare := by
    intro h
    rw [ParamPathAdaptor.pieces, List.splitOn_eq_singleton h]
    rfl

theorem path_call_of_count_le {a : ParamPathAdaptor} {path : StringView}
    (h : path.count a.pathSeparator ≤ intMax) :
    a.call path = .ok ((a.pieces path.bytes).map a.segmentOf) := by
  rw [ParamPathAdaptor.call_eq, ParamPathAdaptor.passes_of_count_le h, List.take_length]

theorem path_call_reads (a : ParamPathAdaptor) (path : StringView)
    (h : path.count a.pathSeparator ≤ intMax) :
    ∃ list, a.call path = .ok list ∧ PathReading a path.bytes list :=
  ⟨_, path_call_of_count_le h, pathReading_pieces a path.bytes⟩

theorem path_call_reads_doubled :
    ∃ list, ParamPathAdaptor.standard.call (.ofText "lead//a?b?c/") = .ok list ∧
      PathReading .standard (text "lead//a?b?c/") list :=
  path_call_reads .standard (.ofText "lead//a?b?c/") (by decide +kernel)

variable {a : KeyValueAdaptor}

def kept (a : KeyValueAdaptor) (seg : Bytes) : Bool := seg ≠ [] ∧ seg ≠ [a.keyValueSeparator]

/-- Split, drop what carries nothing wherever it stands, cut the rest at the first separator. -/
def reference (a : KeyValueAdaptor) (str : Bytes) : MapType :=
  ((str.splitOn a.pairSeparator).filter (kept a)).map a.entryOf

theorem innerEntries_eq (a : KeyValueAdaptor) (seg : Bytes) :
    a.innerEntries seg = ([seg].filter (kept a)).map a.entryOf := by
  by_cases h : seg = [] ∨ seg = [a.keyValueSeparator]
  · rcases h with rfl | rfl <;> simp [KeyValueAdaptor.innerEntries, kept]
  · have hk : kept a seg = true := by simpa [kept] using h
    simp [KeyValueAdaptor.innerEntries, hk, h]

theorem entryOf_separator (a : KeyValueAdaptor) : a.entryOf [a.keyValueSeparator] = ([], []) := by
  simp [KeyValueAdaptor.entryOf, cutBefore, cutAfter]

theorem lastEntries_eq (a : KeyValueAdaptor) (seg : Bytes) :
    a.lastEntries seg = ([seg].filter (kept a)).map a.entryOf ++
      if seg = [a.keyValueSeparator] then [([], [])] else [] := by
  by_cases hkv : seg = [a.keyValueSeparator]
  · subst hkv
    simp [KeyValueAdaptor.lastEntries, kept, entryOf_separator]
  · by_cases hnil : seg = []
    · simp [KeyValueAdaptor.lastEntries, kept, hnil]
    · simp [KeyValueAdaptor.lastEntries, kept, hnil, hkv]

theorem entries_eq_kept {n : ℕ} {segs : List Bytes} (h : segs.length = n) :
    a.entries n segs = (segs.filter (kept a)).map a.entryOf ++
      if segs.getLast? = some [a.keyValueSeparator] then [([], [])] else [] := by
  induction n, segs using KeyValueAdaptor.entries.induct with
  | case1 segs =>
    obtain rfl := List.eq_nil_of_length_eq_zero h
    simp [KeyValueAdaptor.entries]
  | case2 n => cases h
  | case3 n seg => simpa [KeyValueAdaptor.entries] using lastEntries_eq a seg
  | case4 n seg next rest ih =>
    have hn : (next :: rest).length = n := Nat.succ.inj h
    rw [KeyValueAdaptor.entries, ih hn, innerEntries_eq, List.getLast?_cons_cons,
      ← List.append_assoc, ← List.map_append, ← List.filter_append, List.singleton_append]

theorem call_of_count_le {str : StringView} (h : str.count a.pairSeparator ≤ intMax) :
    a.call str = .ok (reference a str.bytes ++
      if (str.bytes.splitOn a.pairSeparator).getLast? = some [a.keyValueSeparator]
      then [([], [])] else []) := by
  rw [KeyValueAdaptor.call_eq, KeyValueAdaptor.passes_of_count_le h, entries_eq_kept rfl]
  rfl

theorem call_reference_iff (a : KeyValueAdaptor) (str : StringView)
    (h : str.count a.pairSeparator ≤ intMax) :
    (∃ map, a.call str = .ok map ∧ map.Perm (reference a str.bytes)) ↔
      (str.bytes.splitOn a.pairSeparator).getLast? ≠ some [a.keyValueSeparator] := by
  rw [call_of_count_le h]
  constructor
  · rintro ⟨map, hmap, hperm⟩ hlast
    rw [if_pos hlast] at hmap
    obtain rfl := Except.ok.inj hmap
    have hlen := hperm.length_eq
    simp at hlen
  · intro hlast
    rw [if_neg hlast, List.append_nil]
    exact ⟨_, rfl, List.Perm.refl _⟩

theorem call_reference_iff_inner :
    ∃ map, KeyValueAdaptor.standard.call (.ofText "=&a=b&&c") = .ok map ∧
      map.Perm (reference .standard (text "=&a=b&&c")) :=
  (call_reference_iff .standard (.ofText "=&a=b&&c") (by decide +kernel)).mpr (by decide +kernel)

/-- The last segment has no length of its own, so its lone separator is taken for a pair. -/
theorem lone_separator_kept :
    (StringView.ofText "=").count KeyValueAdaptor.standard.pairSeparator ≤ intMax ∧
      ¬ ∃ map, KeyValueAdaptor.standard.call (.ofText "=") = .ok map ∧
        map.Perm (reference .standard (text "=")) := by
  refine ⟨by decide, ?_⟩
  rintro ⟨map, hmap, hperm⟩
  have hcall : KeyValueAdaptor.standard.call (.ofText "=") = .ok [([], [])] := by decide +kernel
  have href : reference .standard (text "=") = [] := by decide +kernel
  obtain rfl := Except.ok.inj (hcall.symm.trans hmap)
  rw [href] at hperm
  exact absurd hperm.eq_nil (List.cons_ne_nil _ _)

def joined (a : KeyValueAdaptor) (pair : Bytes × Bytes) : Bytes :=
  pair.1 ++ a.keyValueSeparator :: pair.2

/-- Segments that spell `pairs`, with empty ones thrown in anywhere. -/
structure Spells (a : KeyValueAdaptor) (pairs : MapType) (segs : List Bytes) : Prop where
  distinct : a.keyValueSeparator ≠ a.pairSeparator
  keys : ∀ e ∈ pairs, a.keyValueSeparator ∉ e.1 ∧ a.pairSeparator ∉ e.1
  values : ∀ e ∈ pairs, a.pairSeparator ∉ e.2
  nonempty : ∀ e ∈ pairs, ¬ (e.1 = [] ∧ e.2 = [])
  segments : segs.filter (· ≠ []) = pairs.map (joined a)

theorem Spells.notMem {pairs : MapType} {segs : List Bytes} (h : Spells a pairs segs)
    {seg : Bytes} (hs : seg ∈ segs) : a.pairSeparator ∉ seg := by
  by_cases hnil : seg = []
  · simp [hnil]
  · have hm : seg ∈ pairs.map (joined a) := by
      rw [← h.segments]
      exact List.mem_filter.mpr ⟨hs, by simpa using hnil⟩
    obtain ⟨e, he, rfl⟩ := List.mem_map.mp hm
    simp only [joined, List.mem_append, List.mem_cons, not_or]
    exact ⟨(h.keys e he).2, h.distinct.symm, h.values e he⟩

theorem kept_joined {e : Bytes × Bytes} (h : ¬ (e.1 = [] ∧ e.2 = [])) :
    kept a (joined a e) = true := by
  obtain ⟨k, v⟩ := e
  cases k with
  | nil => simpa [kept, joined] using h
  | cons c k => simp [kept, joined]

theorem Spells.entries {pairs : MapType} {segs : List Bytes} (h : Spells a pairs segs) :
    (segs.filter (kept a)).map a.entryOf = pairs := by
  have hk : segs.filter (kept a) = (segs.filter (· ≠ [])).filter (kept a) := by
    rw [List.filter_filter]
    apply List.filter_congr
    intro seg _
    by_cases hnil : seg = [] <;> simp [kept, hnil]
  have hall : (pairs.map (joined a)).filter (kept a) = pairs.map (joined a) := by
    rw [List.filter_eq_self]
    intro seg hs
    obtain ⟨e, he, rfl⟩ := List.mem_map.mp hs
    exact kept_joined (h.nonempty e he)
  rw [hk, h.segments, hall, List.map_map]
  calc pairs.map (a.entryOf ∘ joined a)
      = pairs.map id := List.map_congr_left fun e he =>
        KeyValueAdaptor.entryOf_append (h.keys e he).1
    _ = pairs := List.map_id pairs

theorem Spells.split {pairs : MapType} {segs : List Bytes} (h : Spells a pairs segs) {str : Bytes}
    (hs : str = [a.pairSeparator].intercalate segs) :
    str.splitOn a.pairSeparator = segs ∨ (segs = [] ∧ str.splitOn a.pairSeparator = [[]]) := by
  rcases segs with _ | ⟨seg, segs⟩
  · right
    simp [hs]
  · left
    rw [hs]
    exact List.splitOn_intercalate _ (fun _ hm => h.notMem hm) (List.cons_ne_nil _ _)

theorem call_spells {str : StringView} {pairs : MapType} {segs : List Bytes}
    (h : Spells a pairs segs) (hs : str.bytes = [a.pairSeparator].intercalate segs)
    (hc : str.count a.pairSeparator ≤ intMax) :
    ∃ map, a.call str = .ok map ∧ map.Perm pairs := by
  have hkept : reference a str.bytes = pairs := by
    rw [← h.entries, reference]
    rcases h.split hs with hsplit | ⟨hnil, hsplit⟩
    · rw [hsplit]
    · rw [hsplit, hnil]
      rfl
  have hlast : (str.bytes.splitOn a.pairSeparator).getLast? ≠ some [a.keyValueSeparator] := by
    intro hl
    have hm := List.mem_of_getLast? hl
    rcases h.split hs with hsplit | ⟨hnil, hsplit⟩
    · have hj : [a.keyValueSeparator] ∈ pairs.map (joined a) := by
        rw [← h.segments, ← hsplit]
        exact List.mem_filter.mpr ⟨hm, by simp⟩
      obtain ⟨e, he, hj⟩ := List.mem_map.mp hj
      have hk := kept_joined (a := a) (h.nonempty e he)
      rw [hj] at hk
      simp [kept] at hk
    · rw [hsplit] at hm
      simp at hm
  rw [call_of_count_le hc, if_neg hlast, List.append_nil, hkept]
  exact ⟨_, rfl, List.Perm.refl _⟩

theorem spells_doubled :
    Spells .standard [(text "a", text "1=2"), ([], text "b"), (text "a", text "1=2")]
      [[], text "a=1=2", [], [], text "=b", text "a=1=2", []] := by
  constructor <;> decide +kernel

theorem call_spells_doubled :
    ∃ map, KeyValueAdaptor.standard.call (.ofText "&a=1=2&&&=b&a=1=2&") = .ok map ∧
      map.Perm [(text "a", text "1=2"), ([], text "b"), (text "a", text "1=2")] :=
  call_spells spells_doubled (by decide +kernel) (by decide +kernel)

def trailed (n : ℕ) (h : n + 2 < npos) : StringView :=
  ⟨text "a=" ++ List.replicate n KeyValueAdaptor.standard.pairSeparator, by
    rw [List.length_append, List.length_replicate, Nat.add_comm]
    exact h⟩

theorem intercalate_empties (c : Byte) (seg : Bytes) (n : ℕ) :
    [c].intercalate (seg :: List.replicate n []) = seg ++ List.replicate n c := by
  induction n generalizing seg with
  | zero => simp
  | succ n ih =>
    rw [List.replicate_succ, List.intercalate_cons_cons, ih, List.nil_append,
      List.replicate_succ, List.append_assoc, List.singleton_append]

theorem trailed_spells (n : ℕ) :
    Spells .standard [(text "a", [])] (text "a=" :: List.replicate n []) := by
  refine ⟨by decide, by decide, by decide, by decide, ?_⟩
  rw [List.filter_cons_of_pos (by decide), List.filter_replicate]
  rfl

theorem trailed_unread {n : ℕ} (h : n + 2 < npos) (hneg : narrowInt n < 0) :
    KeyValueAdaptor.standard.call (trailed n h) = .ok [] := by
  have hcount : (trailed n h).count KeyValueAdaptor.standard.pairSeparator = n := by
    rw [StringView.count, trailed, List.count_append, List.count_replicate_self]
    exact Nat.zero_add n
  have hpasses : KeyValueAdaptor.standard.passes (trailed n h) = 0 := by
    rw [KeyValueAdaptor.passes, hcount]
    omega
  rw [KeyValueAdaptor.call, KeyValueAdaptor.callWith, hpasses]
  rfl

theorem intMax_add_three_lt_npos : intMax + 1 + 2 < npos := by
  unfold intMax npos sizeModulus
  omega

/-- One separator more than an `int` counts: the loop does not run at all. -/
theorem trailed_lost :
    Spells .standard [(text "a", [])] (text "a=" :: List.replicate (intMax + 1) []) ∧
      (trailed (intMax + 1) intMax_add_three_lt_npos).bytes =
        [KeyValueAdaptor.standard.pairSeparator].intercalate
          (text "a=" :: List.replicate (intMax + 1) []) ∧
      ¬ ∃ map, KeyValueAdaptor.standard.call (trailed (intMax + 1) intMax_add_three_lt_npos) =
        .ok map ∧ map.Perm [(text "a", [])] := by
  refine ⟨trailed_spells _, (intercalate_empties _ _ _).symm, ?_⟩
  rintro ⟨map, hmap, hperm⟩
  rw [trailed_unread _ narrowInt_intMax_succ] at hmap
  obtain rfl := Except.ok.inj hmap
  exact absurd hperm.nil_eq (List.cons_ne_nil _ _).symm

end AdaptorReference

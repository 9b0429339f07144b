import Cur8or.CxxLibrary

/-! The two string adaptors. Each loop walks the text with wrapping offsets and stops on a
precomputed `int` count of separators; each is shown to be a function of the split text. -/
namespace UtilitiesAdaptors

open CxxLibrary

/-- What a loop does to its text. The end of a pass has no effect of its own, but a log may note
it. -/
structure Reader (m : Type → Type) where
  substr : StringView → ℕ → ℕ → m StringView
  advance : ℕ → ℕ → m Unit

def Reader.plain : Reader (Except Fault) := ⟨StringView.substr, fun _ _ => .ok ()⟩

theorem Reader.plain_substr {s : StringView} {pos : ℕ} (h : pos ≤ s.size) (n : ℕ) :
    Reader.plain.substr s pos n = .ok (s.slice pos n) := StringView.substr_of_le h n

structure KeyValueAdaptor where
  keyValueSeparator : Byte
  pairSeparator : Byte

/-- The constructor's default arguments. -/
def KeyValueAdaptor.standard : KeyValueAdaptor := ⟨'='.toUInt8, '&'.toUInt8⟩

/-- An `unordered_multimap`; only the multiset of its entries is observable. -/
abbrev MapType := List (Bytes × Bytes)

namespace KeyValueAdaptor

variable {m : Type → Type} [Monad m]

/-- The inner block, run on a segment of a positive `delim`. -/
def insertPair (a : KeyValueAdaptor) (reader : Reader m) (map : MapType) (delim : ℕ)
    (pair : StringView) : m MapType := do
  let sep := pair.find a.keyValueSeparator 0
  if (sep ≠ 0 ∨ delim ≠ 1) ∧ pair.size ≠ 0 then
    let key ← reader.substr pair 0 sep
    let value ← reader.substr pair (sizeAdd sep 1) npos
    return map ++ [(key.bytes, value.bytes)]
  else return map

def visit (a : KeyValueAdaptor) (reader : Reader m) (str : StringView) (pos delim : ℕ)
    (map : MapType) : m MapType :=
  if 0 < delim then do
    let pair ← reader.substr str pos delim
    a.insertPair reader map delim pair
  else return map

def loop (a : KeyValueAdaptor) (reader : Reader m) (str : StringView) :
    ℕ → ℕ → MapType → m MapType
  | 0, _, map => return map
  | n + 1, pos, map => do
    let delim := sizeSub (str.find a.pairSeparator pos) pos
    let map ← a.visit reader str pos delim map
    let next := sizeAdd pos (sizeAdd delim 1)
    reader.advance pos next
    loop a reader str n next map

/-- The loop runs while `0 <= segments`, so not at all when the count wraps below zero. -/
def passes (a : KeyValueAdaptor) (str : StringView) : ℕ :=
  (narrowInt (str.count a.pairSeparator) + 1).toNat

def callWith (a : KeyValueAdaptor) (reader : Reader m) (str : StringView) : m MapType :=
  a.loop reader str (a.passes str) 0 []

/-- `KeyValueAdaptor::operator()` -/
def call (a : KeyValueAdaptor) (str : StringView) : Except Fault MapType := a.callWith .plain str

def entryOf (a : KeyValueAdaptor) (seg : Bytes) : Bytes × Bytes :=
  if a.keyValueSeparator ∈ seg then
    (cutBefore a.keyValueSeparator seg, cutAfter a.keyValueSeparator seg)
  else (seg, seg)

def innerEntries (a : KeyValueAdaptor) (seg : Bytes) : MapType :=
  if seg = [] ∨ seg = [a.keyValueSeparator] then [] else [a.entryOf seg]

/-- The last segment has no length of its own, so a lone separator there is not recognised. -/
def lastEntries (a : KeyValueAdaptor) (seg : Bytes) : MapType :=
  if seg = [] then [] else [a.entryOf seg]

def entries (a : KeyValueAdaptor) : ℕ → List Bytes → MapType
  | 0, _ => []
  | _ + 1, [] => []
  | _ + 1, [seg] => a.lastEntries seg
  | n + 1, seg :: next :: rest => a.innerEntries seg ++ entries a n (next :: rest)

theorem passes_le (a : KeyValueAdaptor) (str : StringView) :
    a.passes str ≤ str.bytes.count a.pairSeparator + 1 := by
  have h := narrowInt_le (str.count a.pairSeparator)
  simp only [passes, StringView.count] at *
  omega

theorem passes_of_count_le {a : KeyValueAdaptor} {str : StringView}
    (h : str.count a.pairSeparator ≤ intMax) :
    a.passes str = (str.bytes.splitOn a.pairSeparator).length := by
  rw [passes, narrowInt_of_le h, length_splitOn]
  rfl

theorem insertPair_eq (a : KeyValueAdaptor) (map : MapType) (delim : ℕ) (pair : StringView) :
    a.insertPair .plain map delim pair = .ok (map ++
      if pair.bytes = [] ∨ (pair.bytes.head? = some a.keyValueSeparator ∧ delim = 1) then []
      else [a.entryOf pair.bytes]) := by
  obtain ⟨key, hk, hkb⟩ := pair.substr_before a.keyValueSeparator
  obtain ⟨value, hv, hvb⟩ := pair.substr_after a.keyValueSeparator npos
  have hsize : pair.size = 0 ↔ pair.bytes = [] := List.length_eq_zero_iff
  have hskip : ((pair.find a.keyValueSeparator 0 ≠ 0 ∨ delim ≠ 1) ∧ pair.size ≠ 0) ↔
      ¬ (pair.bytes = [] ∨ (pair.bytes.head? = some a.keyValueSeparator ∧ delim = 1)) := by
    rw [← StringView.find_zero_eq_zero_iff, ← hsize]
    tauto
  have hentry : (key.bytes, value.bytes) = a.entryOf pair.bytes := by
    have htake : ∀ l : Bytes, l.length ≤ pair.size → l.take npos = l := by
      intro l hl
      have := pair.size_lt_npos
      exact List.take_of_length_le (by omega)
    rw [hkb, hvb, entryOf]
    split
    · next h =>
      rw [htake]
      exact (List.drop_suffix _ _).length_le
    · next h =>
      rw [cutBefore_of_notMem h, htake _ (le_refl _)]
  simp only [insertPair, Reader.plain, hskip, hk, hv, bind, Except.bind, pure, Except.pure]
  by_cases h : pair.bytes = [] ∨ (pair.bytes.head? = some a.keyValueSeparator ∧ delim = 1)
  · rw [if_neg (not_not_intro h), if_pos h, List.append_nil]
  · rw [if_pos h, if_neg h, hentry]

variable {a : KeyValueAdaptor} {str : StringView} {pos : ℕ}

theorem visit_inner (hpos : pos ≤ str.size) (h : a.pairSeparator ∈ str.bytes.drop pos)
    (map : MapType) :
    a.visit .plain str pos (sizeSub (str.find a.pairSeparator pos) pos) map =
      .ok (map ++ a.innerEntries (cutBefore a.pairSeparator (str.bytes.drop pos))) := by
  have hs := StringView.slice_delim (c := a.pairSeparator) hpos
  have hd := StringView.delim_eq (c := a.pairSeparator) hpos
  rw [if_pos h] at hd
  have hlen : (cutBefore a.pairSeparator (str.bytes.drop pos)).length =
      sizeSub (str.find a.pairSeparator pos) pos := by
    rw [hd, cutBefore, List.length_take]
    exact min_eq_left (Nat.le_of_lt (List.idxOf_lt_length_of_mem h))
  rw [visit, Reader.plain_substr hpos]
  generalize sizeSub (str.find a.pairSeparator pos) pos = delim at *
  generalize cutBefore a.pairSeparator (str.bytes.drop pos) = seg at *
  have hskip : (seg = [] ∨ (seg.head? = some a.keyValueSeparator ∧ delim = 1)) ↔
      (seg = [] ∨ seg = [a.keyValueSeparator]) := by
    rw [← hlen]
    rcases seg with _ | ⟨b, _ | ⟨c, l⟩⟩ <;> simp
  split
  · next hdelim =>
    rw [ok_bind, insertPair_eq, hs]
    simp only [hskip, innerEntries]
  · next hdelim =>
    have hnil : seg = [] := List.eq_nil_of_length_eq_zero (by omega)
    rw [innerEntries, if_pos (Or.inl hnil), List.append_nil]
    rfl

theorem visit_last (hpos : pos ≤ str.size) (h : a.pairSeparator ∉ str.bytes.drop pos)
    (map : MapType) :
    a.visit .plain str pos (sizeSub (str.find a.pairSeparator pos) pos) map =
      .ok (map ++ a.lastEntries (str.bytes.drop pos)) := by
  have hs := StringView.slice_delim (c := a.pairSeparator) hpos
  have hd := StringView.delim_eq (c := a.pairSeparator) hpos
  have hsize := str.size_lt_npos
  rw [if_neg h] at hd
  rw [cutBefore_of_notMem h] at hs
  -- a wrapped length of one leaves no room for a segment
  have hskip : (str.bytes.drop pos = [] ∨ ((str.bytes.drop pos).head? =
      some a.keyValueSeparator ∧ npos - pos = 1)) ↔ str.bytes.drop pos = [] := by
    refine ⟨?_, Or.inl⟩
    rintro (hnil | ⟨_, hone⟩)
    · exact hnil
    · apply List.drop_eq_nil_of_le
      simp only [StringView.size] at *
      omega
  rw [visit, Reader.plain_substr hpos, if_pos (by omega)]
  rw [ok_bind, insertPair_eq, hs, hd]
  simp only [hskip, lastEntries]

theorem loop_succ (n : ℕ) (map : MapType) : a.loop .plain str (n + 1) pos map =
    a.visit .plain str pos (sizeSub (str.find a.pairSeparator pos) pos) map >>=
      a.loop .plain str n
        (sizeAdd pos (sizeAdd (sizeSub (str.find a.pairSeparator pos) pos) 1)) := rfl

/-- The counter never outlives the text, so the wrapped position is never used. -/
theorem loop_eq (n : ℕ) (map : MapType) (hpos : pos ≤ str.size)
    (hn : n ≤ (str.bytes.drop pos).count a.pairSeparator + 1) :
    a.loop .plain str n pos map =
      .ok (map ++ a.entries n ((str.bytes.drop pos).splitOn a.pairSeparator)) := by
  induction n generalizing pos map with
  | zero => exact congrArg Except.ok (List.append_nil map).symm
  | succ n ih =>
    obtain ⟨hle, hlast, hcount⟩ := StringView.next_pass hpos hn
    by_cases h : a.pairSeparator ∈ str.bytes.drop pos
    · obtain ⟨_, _, hdrop⟩ := StringView.next_of_mem h hpos
      obtain ⟨next, rest, hsplit⟩ := List.exists_cons_of_ne_nil (List.splitOn_ne_nil
        a.pairSeparator (cutAfter a.pairSeparator (str.bytes.drop pos)))
      rw [loop_succ, visit_inner hpos h, ok_bind, ih _ hle hcount, hdrop, splitOn_of_mem h,
        hsplit, entries, List.append_assoc]
    · obtain rfl := hlast h
      rw [loop_succ, visit_last hpos h, ok_bind, List.splitOn_eq_singleton h, entries]
      rfl

theorem call_eq (a : KeyValueAdaptor) (str : StringView) :
    a.call str = .ok (a.entries (a.passes str) (str.bytes.splitOn a.pairSeparator)) := by
  have h := a.passes_le str
  rw [call, callWith, loop_eq _ _ (Nat.zero_le _) (by simpa using h), List.nil_append, List.drop_zero]

example : standard.call (.ofText "=&=value1&key2=value2=value2&=&=&&key3==value3&&&=&") =
    .ok [(text "", text "value1"), (text "key2", text "value2=value2"),
      (text "key3", text "=value3")] := by decide +kernel

theorem segment_of_mem_entries {n : ℕ} {segs : List Bytes} {e : Bytes × Bytes}
    (h : e ∈ a.entries n segs) : ∃ seg ∈ segs.take n, e = a.entryOf seg := by
  induction n, segs using entries.induct with
  | case1 segs => simp [entries] at h
  | case2 n => simp [entries] at h
  | case3 n seg =>
    simp only [entries, lastEntries] at h
    split at h
    · simp at h
    · exact ⟨seg, by simp, List.mem_singleton.mp h⟩
  | case4 n seg next rest ih =>
    rw [entries, List.mem_append] at h
    rcases h with h | h
    · simp only [innerEntries] at h
      split at h
      · simp at h
      · exact ⟨seg, by simp, List.mem_singleton.mp h⟩
    · obtain ⟨seg, hs, he⟩ := ih h
      exact ⟨seg, by simp [hs], he⟩

theorem mem_entries_of_segment {n : ℕ} {segs : List Bytes} {seg : Bytes}
    (h : seg ∈ segs.take n) (hnil : seg ≠ []) (hkv : seg ≠ [a.keyValueSeparator]) :
    a.entryOf seg ∈ a.entries n segs := by
  induction n, segs using entries.induct with
  | case1 segs => simp at h
  | case2 n => simp at h
  | case3 n last =>
    obtain rfl : seg = last := by simpa using h
    simp [entries, lastEntries, hnil]
  | case4 n first next rest ih =>
    rw [entries, List.mem_append]
    rw [List.take_succ_cons] at h
    rcases List.mem_cons.mp h with rfl | h
    · left
      simp [innerEntries, hnil, hkv]
    · exact Or.inr (ih h)

theorem entryOf_key_iff {key seg : Bytes} (hk : a.keyValueSeparator ∉ key) :
    (a.entryOf seg).1 = key ↔ seg = key ∨ key ++ [a.keyValueSeparator] <+: seg := by
  simp only [entryOf]
  split
  · next h =>
    obtain ⟨hseg, _⟩ := cut_of_mem h
    constructor
    · intro hkey
      refine Or.inr ⟨cutAfter a.keyValueSeparator seg, ?_⟩
      rw [List.append_assoc, List.singleton_append, ← hkey]
      exact hseg.symm
    · rintro (rfl | ⟨rest, hr⟩)
      · exact absurd h hk
      · rw [← hr, List.append_assoc, List.singleton_append]
        exact (cut_append hk rest).1
  · next h =>
    refine ⟨Or.inl, ?_⟩
    rintro (rfl | hp)
    · rfl
    · exact absurd (hp.mem (by simp)) h

theorem entryOf_append {key value : Bytes} (hk : a.keyValueSeparator ∉ key) :
    a.entryOf (key ++ a.keyValueSeparator :: value) = (key, value) := by
  obtain ⟨h₁, h₂⟩ := cut_append hk value
  rw [entryOf, if_pos (by simp), h₁, h₂]

theorem notMem_entryOf_value {c : Byte} {seg : Bytes} (h : c ∉ seg) :
    c ∉ (a.entryOf seg).2 := by
  simp only [entryOf]
  split
  · intro hm
    exact h ((List.drop_suffix _ _).mem hm)
  · exact h

theorem key_mem_iff {key : Bytes} (hnil : key ≠ []) (hk : a.keyValueSeparator ∉ key) :
    (∃ e ∈ a.entries (a.passes str) (str.bytes.splitOn a.pairSeparator), e.1 = key) ↔
      ∃ seg ∈ (str.bytes.splitOn a.pairSeparator).take (a.passes str),
        seg = key ∨ key ++ [a.keyValueSeparator] <+: seg := by
  constructor
  · rintro ⟨e, he, rfl⟩
    obtain ⟨seg, hseg, rfl⟩ := segment_of_mem_entries he
    exact ⟨seg, hseg, (entryOf_key_iff hk).mp rfl⟩
  · rintro ⟨seg, hseg, hkey⟩
    have he := (entryOf_key_iff hk).mpr hkey
    refine ⟨_, mem_entries_of_segment hseg ?_ ?_, he⟩
    · rintro rfl
      simp_all
    · rintro rfl
      simp [entryOf, cutBefore] at he
      exact hnil he

end KeyValueAdaptor

structure ParamPathAdaptor where
  pathSeparator : Byte
  paramSign : Byte

/-- The constructor's default arguments. -/
def ParamPathAdaptor.standard : ParamPathAdaptor := ⟨'/'.toUInt8, '?'.toUInt8⟩

abbrev PathSegment := Bytes × Bytes
abbrev ListType := List PathSegment

namespace ParamPathAdaptor

variable {m : Type → Type} [Monad m]

def emplaceBack (a : ParamPathAdaptor) (reader : Reader m) (list : ListType)
    (pair : StringView) : m ListType := do
  let sep := pair.find a.paramSign 0
  let name ← reader.substr pair 0 sep
  let params ← reader.substr pair (sizeAdd sep 1) (if sep = npos then 0 else npos)
  return list ++ [(name.bytes, params.bytes)]

def loop (a : ParamPathAdaptor) (reader : Reader m) (path : StringView) :
    ℕ → ℕ → ListType → m ListType
  | 0, _, list => return list
  | n + 1, pos, list => do
    let delim := sizeSub (path.find a.pathSeparator pos) pos
    let pair ← reader.substr path pos delim
    let list ← a.emplaceBack reader list pair
    let next := sizeAdd pos (sizeAdd delim 1)
    reader.advance pos next
    loop a reader path n next list

/-- The loop runs while `segments > 0`. -/
def passes (a : ParamPathAdaptor) (path : StringView) : ℕ :=
  (narrowInt (path.count a.pathSeparator)).toNat

def callWith (a : ParamPathAdaptor) (reader : Reader m) (path : StringView) : m ListType :=
  a.loop reader path (a.passes path) (sizeAdd (path.find a.pathSeparator 0) 1) []

/-- `ParamPathAdaptor::operator()` -/
def call (a : ParamPathAdaptor) (path : StringView) : Except Fault ListType :=
  a.callWith .plain path

def segmentOf (a : ParamPathAdaptor) (seg : Bytes) : PathSegment :=
  (cutBefore a.paramSign seg, cutAfter a.paramSign seg)

def pieces (a : ParamPathAdaptor) (path : Bytes) : List Bytes := (path.splitOn a.pathSeparator).tail

theorem pieces_of_mem {a : ParamPathAdaptor} {path : Bytes} (h : a.pathSeparator ∈ path) :
    a.pieces path = (cutAfter a.pathSeparator path).splitOn a.pathSeparator := by
  rw [pieces, splitOn_of_mem h, List.tail_cons]

theorem length_pieces (a : ParamPathAdaptor) (path : Bytes) :
    (a.pieces path).length = path.count a.pathSeparator := by
  rw [pieces, List.length_tail, length_splitOn, Nat.add_sub_cancel]

theorem passes_le (a : ParamPathAdaptor) (path : StringView) :
    a.passes path ≤ path.bytes.count a.pathSeparator := by
  have h := narrowInt_le (path.count a.pathSeparator)
  simp only [passes, StringView.count] at *
  omega

theorem passes_of_count_le {a : ParamPathAdaptor} {path : StringView}
    (h : path.count a.pathSeparator ≤ intMax) :
    a.passes path = (a.pieces path.bytes).length := by
  rw [passes, narrowInt_of_le h, length_pieces]
  rfl

theorem emplaceBack_eq (a : ParamPathAdaptor) (list : ListType) (pair : StringView) :
    a.emplaceBack .plain list pair = .ok (list ++ [a.segmentOf pair.bytes]) := by
  obtain ⟨name, hn, hnb⟩ := pair.substr_before a.paramSign
  obtain ⟨params, hp, hpb⟩ := pair.substr_after a.paramSign
    (if pair.find a.paramSign 0 = npos then 0 else npos)
  have hparams : params.bytes = cutAfter a.paramSign pair.bytes := by
    rw [hpb]
    simp only [StringView.find_eq_npos_iff, List.drop_zero]
    by_cases h : a.paramSign ∈ pair.bytes
    · rw [if_pos h, if_neg (not_not_intro h)]
      have hl : (cutAfter a.paramSign pair.bytes).length ≤ pair.bytes.length :=
        (List.drop_suffix _ _).length_le
      have hs := pair.size_lt
      exact List.take_of_length_le (by omega)
    · rw [if_neg h, if_pos h, cutAfter_of_notMem h]
      rfl
  simp only [emplaceBack, Reader.plain, hn, hp, ok_bind, hnb, hparams]
  rfl

variable {a : ParamPathAdaptor} {path : StringView} {pos : ℕ}

theorem loop_succ (n : ℕ) (list : ListType) : a.loop .plain path (n + 1) pos list =
    (Reader.plain.substr path pos (sizeSub (path.find a.pathSeparator pos) pos) >>= fun pair =>
      a.emplaceBack .plain list pair >>= a.loop .plain path n
        (sizeAdd pos (sizeAdd (sizeSub (path.find a.pathSeparator pos) pos) 1))) := rfl

theorem loop_eq (n : ℕ) (list : ListType) (hpos : pos ≤ path.size)
    (hn : n ≤ (path.bytes.drop pos).count a.pathSeparator + 1) :
    a.loop .plain path n pos list = .ok (list ++
      (((path.bytes.drop pos).splitOn a.pathSeparator).take n).map a.segmentOf) := by
  induction n generalizing pos list with
  | zero => exact congrArg Except.ok (List.append_nil list).symm
  | succ n ih =>
    have hs := StringView.slice_delim (c := a.pathSeparator) hpos
    obtain ⟨hle, hlast, hcount⟩ := StringView.next_pass hpos hn
    rw [loop_succ, Reader.plain_substr hpos, ok_bind, emplaceBack_eq, ok_bind, hs]
    by_cases h : a.pathSeparator ∈ path.bytes.drop pos
    · obtain ⟨_, _, hdrop⟩ := StringView.next_of_mem h hpos
      rw [ih _ hle hcount, hdrop, splitOn_of_mem h, List.take_succ_cons, List.map_cons,
        List.append_assoc, List.singleton_append]
    · obtain rfl := hlast h
      rw [List.splitOn_eq_singleton h, cutBefore_of_notMem h, List.take_one]
      rfl

theorem call_eq (a : ParamPathAdaptor) (path : StringView) :
    a.call path = .ok (((a.pieces path.bytes).take (a.passes path)).map a.segmentOf) := by
  have hle := a.passes_le path
  by_cases h : a.pathSeparator ∈ path.bytes
  · have hdrop := StringView.drop_past h
    have hpos := StringView.past_le_size path a.pathSeparator
    rw [count_of_mem h] at hle
    rw [call, callWith, loop_eq _ _ hpos (hdrop ▸ hle), hdrop, pieces_of_mem h, List.nil_append]
  · have hzero : a.passes path = 0 := by
      rw [List.count_eq_zero_of_not_mem h] at hle
      omega
    rw [call, callWith, hzero, List.take_zero, List.map_nil]
    rfl

example : standard.call (.ofText "/target1/target2?arguments2/target3?///") =
    .ok [(text "target1", []), (text "target2", text "arguments2"), (text "target3", []),
      ([], []), ([], []), ([], [])] := by decide +kernel

end ParamPathAdaptor

end UtilitiesAdaptors

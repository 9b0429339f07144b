import Cur8or.CxxLibrary

/-! `std::filesystem::path` under POSIX syntax, as far as it is purely lexical. -/
namespace PosixPath

open CxxLibrary

abbrev Path := Bytes

def separator : Byte := '/'.toUInt8
def dot : Bytes := text "."
def dotDot : Bytes := text ".."

def components (p : Path) : List Bytes := p.splitOn separator

def isAbsolute (p : Path) : Bool := p.head? = some separator

def hasFilename (p : Path) : Bool := p ≠ [] ∧ p.getLast? ≠ some separator

/-- `operator/=`: an absolute right operand replaces the path. -/
def append (p q : Path) : Path :=
  if isAbsolute q then q
  else if hasFilename p then p ++ separator :: q
  else p ++ q

def concat (p : Path) (t : Bytes) : Path := p ++ t

def filename (p : Path) : Bytes := (components p).getLastD []

/-- The suffix from the last dot, unless that dot starts the name. -/
def extension (p : Path) : Bytes :=
  let name := filename p
  if name = dotDot ∨ '.'.toUInt8 ∉ name.tail then []
  else '.'.toUInt8 :: (name.splitOn '.'.toUInt8).getLastD []

/-- One component of `lexically_normal`, on the reversed normal form so far. -/
def normalStep (absolute : Bool) (done : List Bytes) (name : Bytes) : List Bytes :=
  if name = [] ∨ name = dot then done
  else if name = dotDot then
    match done with
    | [] => if absolute then [] else [dotDot]
    | last :: rest => if last = dotDot then dotDot :: done else rest
  else name :: done

structure NormalForm where
  absolute : Bool
  names : List Bytes
  deriving DecidableEq

def lexicallyNormal (p : Path) : NormalForm :=
  ⟨isAbsolute p, ((components p).foldl (normalStep (isAbsolute p)) []).reverse⟩

/-- `p` names something below `root`, going by the text of the two paths alone. -/
def Inside (root p : Path) : Prop :=
  (lexicallyNormal p).absolute = (lexicallyNormal root).absolute ∧
  ∃ below, (lexicallyNormal p).names = (lexicallyNormal root).names ++ below ∧ dotDot ∉ below

theorem components_join (a b : Path) :
    components (a ++ separator :: b) = components a ++ components b :=
  List.splitOn_append_cons_self a b

/-- A word without a separator does not reach across one. -/
theorem infix_join {w a b : Bytes} (hw : separator ∉ w) (h : w <:+: a ++ separator :: b) :
    w <:+: a ∨ w <:+: b := by
  obtain ⟨s, t, h⟩ := h
  rcases List.append_eq_append_iff.mp h with ⟨u, ha, _⟩ | ⟨u, hu, hb⟩
  · exact Or.inl ⟨s, u, ha.symm⟩
  · cases u with
    | nil => exact Or.inl ⟨s, [], by simpa using hu⟩
    | cons c u =>
      obtain ⟨rfl, rfl⟩ := List.cons.inj hb
      rcases List.append_eq_append_iff.mp hu with ⟨v, _, hv⟩ | ⟨v, _, hv⟩
      · exact absurd (by simp [hv]) hw
      · cases v with
        | nil =>
          obtain rfl : separator :: u = w := hv
          exact absurd List.mem_cons_self hw
        | cons d v =>
          obtain ⟨_, rfl⟩ := List.cons.inj hv
          exact Or.inr ⟨v, t, rfl⟩

theorem dotDot_notMem_components {p : Path} (h : ¬ dotDot <:+: p) : dotDot ∉ components p :=
  fun hm => h (mem_splitOn hm).2

theorem append_eq_join {p q : Path} (hp : p ≠ []) (hq : isAbsolute q = false) :
    ∃ a, append p q = a ++ separator :: q ∧ (p = a ∨ p = a ++ [separator]) := by
  simp only [append, hq]
  by_cases hf : hasFilename p = true
  · exact ⟨p, by simp [hf], Or.inl rfl⟩
  · have hl : p.getLast? = some separator := by
      simpa [hasFilename, hp] using hf
    obtain ⟨a, rfl⟩ := List.getLast?_eq_some_iff.mp hl
    refine ⟨a, ?_, Or.inr rfl⟩
    rw [if_neg (by decide), if_neg hf, List.append_assoc, List.singleton_append]

theorem mem_components_append {p q : Path} (hp : p ≠ []) (hq : isAbsolute q = false) {name}
    (h : name ∈ components (append p q)) : name ∈ components p ∨ name ∈ components q := by
  obtain ⟨a, ha, hpa⟩ := append_eq_join hp hq
  rw [ha, components_join, List.mem_append] at h
  rcases h with h | h
  · left
    rcases hpa with rfl | rfl
    · exact h
    · rw [components_join]
      exact List.mem_append_left _ h
  · exact Or.inr h

theorem prefix_append {p : Path} (hp : p ≠ []) {q : Path} (hq : isAbsolute q = false) :
    p <+: append p q := by
  obtain ⟨a, ha, rfl | rfl⟩ := append_eq_join hp hq
  · exact ha ▸ List.prefix_append _ _
  · exact ⟨q, by rw [ha, List.append_assoc, List.singleton_append]⟩

private theorem foldl_normalStep {abs : Bool} {names : List Bytes} (h : dotDot ∉ names)
    (done : List Bytes) : names.foldl (normalStep abs) done =
      (names.filter (fun n => n ≠ [] ∧ n ≠ dot)).reverse ++ done := by
  induction names generalizing done with
  | nil => rfl
  | cons n names ih =>
    obtain ⟨hn, ht⟩ := not_or.mp (mt List.mem_cons.mpr h)
    have hd : ¬ n = dotDot := fun e => hn e.symm
    rw [List.foldl_cons, ih ht]
    by_cases hs : n = [] ∨ n = dot
    · rcases hs with rfl | rfl <;> simp [normalStep]
    · obtain ⟨h₁, h₂⟩ := not_or.mp hs
      simp [normalStep, h₁, h₂, hd]

/-- Without a dot-dot component, normalising only drops empty components and dots. -/
theorem lexicallyNormal_names {p : Path} (h : dotDot ∉ components p) :
    (lexicallyNormal p).names = (components p).filter (fun n => n ≠ [] ∧ n ≠ dot) := by
  simp [lexicallyNormal, foldl_normalStep h]

theorem inside_of_no_dotDot {root rest : Path} (hr : root ≠ [])
    (h : dotDot ∉ components (root ++ separator :: rest)) :
    Inside root (root ++ separator :: rest) := by
  have hj := components_join root rest
  have hroot : dotDot ∉ components root := fun hm => h (hj ▸ List.mem_append_left _ hm)
  have hrest : dotDot ∉ components rest := fun hm => h (hj ▸ List.mem_append_right _ hm)
  refine ⟨?_, (components rest).filter (fun n => n ≠ [] ∧ n ≠ dot), ?_, ?_⟩
  · obtain ⟨c, l, rfl⟩ := List.exists_cons_of_ne_nil hr
    rfl
  · rw [lexicallyNormal_names h, lexicallyNormal_names hroot, hj, List.filter_append]
  · exact fun hm => hrest (List.mem_filter.mp hm).1

end PosixPath

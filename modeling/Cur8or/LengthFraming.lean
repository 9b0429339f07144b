import Mathlib.Data.List.Forall2

/-! Messages one behind the other on a stream: a header that can be told from what follows it, and
a body as long as the reader takes the header to say. `κ` is what the reader knows besides, `η`
the type of headers and `τ` that of the symbols of the stream. -/
namespace LengthFraming

variable {κ η τ : Type*}

structure HeaderCodec (η τ : Type*) where
  encode : η → List τ
  decode : List τ → Option (η × List τ)
  decode_encode : ∀ h rest, decode (encode h ++ rest) = some (h, rest)

structure Message (η τ : Type*) where
  header : η
  body : List τ
  deriving DecidableEq

def write (codec : HeaderCodec η τ) : List (Message η τ) → List τ
  | [] => []
  | m :: ms => codec.encode m.header ++ (m.body ++ write codec ms)

def readMessage (codec : HeaderCodec η τ) (expected : η → ℕ) (l : List τ) :
    Option (Message η τ × List τ) :=
  match codec.decode l with
  | none => none
  | some (h, rest) =>
    if expected h ≤ rest.length then some (⟨h, rest.take (expected h)⟩, rest.drop (expected h))
    else none

/-- One message for each thing the reader waits for, and nothing behind the last. -/
def read [DecidableEq τ] (codec : HeaderCodec η τ) (expected : κ → η → ℕ) :
    List κ → List τ → Option (List (Message η τ))
  | [], l => if l = [] then some [] else none
  | k :: ks, l =>
    match readMessage codec (expected k) l with
    | none => none
    | some (m, rest) => (read codec expected ks rest).map (m :: ·)

variable {codec : HeaderCodec η τ} {expected : κ → η → ℕ}

/-- Whatever follows, a body of the announced length is read to its end and no further. -/
theorem readMessage_exact {e : η → ℕ} {m : Message η τ} (h : e m.header = m.body.length)
    (rest : List τ) :
    readMessage codec e (codec.encode m.header ++ (m.body ++ rest)) = some (m, rest) := by
  have hle : m.body.length ≤ (m.body ++ rest).length := by
    rw [List.length_append]
    exact Nat.le_add_right _ _
  simp only [readMessage, codec.decode_encode, h, if_pos hle, List.take_left, List.drop_left]

theorem length_of_readMessage {e : η → ℕ} {m : Message η τ} {l rest : List τ}
    (h : readMessage codec e (codec.encode m.header ++ l) = some (m, rest)) :
    e m.header = m.body.length ∧ l = m.body ++ rest := by
  simp only [readMessage, codec.decode_encode] at h
  split at h
  · next hle =>
    obtain ⟨hm, hrest⟩ := Prod.mk.inj (Option.some.inj h)
    have hbody : l.take (e m.header) = m.body := congrArg Message.body hm
    refine ⟨?_, ?_⟩
    · rw [← hbody, List.length_take, Nat.min_eq_left hle]
    · rw [← hbody, ← hrest, List.take_append_drop]
  · cases h

theorem read_write_iff [DecidableEq τ] {ks : List κ} {ms : List (Message η τ)} :
    read codec expected ks (write codec ms) = some ms ↔
      List.Forall₂ (fun k m => expected k m.header = m.body.length) ks ms := by
  induction ks generalizing ms with
  | nil =>
    rw [List.forall₂_nil_left_iff, read]
    constructor
    · intro h
      split at h
      · exact (Option.some.inj h).symm
      · cases h
    · rintro rfl
      rfl
  | cons k ks ih =>
    cases ms with
    | nil =>
      refine iff_of_false ?_ (by simp)
      intro h
      rw [read] at h
      split at h
      · cases h
      · next m rest _ =>
        obtain ⟨_, _, hcons⟩ := Option.map_eq_some_iff.mp h
        cases hcons
    | cons m ms =>
      rw [List.forall₂_cons, ← ih, write, read]
      constructor
      · intro h
        split at h
        · cases h
        · next m' rest hm =>
          obtain ⟨ms', hms, hcons⟩ := Option.map_eq_some_iff.mp h
          obtain ⟨rfl, rfl⟩ := List.cons.inj hcons
          obtain ⟨hlen, hrest⟩ := length_of_readMessage hm
          rw [List.append_cancel_left hrest]
          exact ⟨hlen, hms⟩
      · rintro ⟨hlen, hms⟩
        rw [readMessage_exact hlen]
        simp only [hms, Option.map_some]

end LengthFraming

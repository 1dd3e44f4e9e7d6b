import Marshal.Reader
import Mathlib.Data.List.Infix

/-!
# Laws of readers

Three properties of readers, each kept by the combinators:

* `Reader.Reads`: what was written is read back, whatever follows it;
* `Reader.Uses`: a successful read uses at least so many bytes;
* `Reader.Tracks`: a reader, and perhaps a second one, answers alike on two inputs that agree as far
  as the first reader looks.

The bound `m` in `Reads` and the two limits in `Tracks` speak of the length of the whole input.
They are idle for scalars and matter where a reader counts how much input it has left.
-/

namespace Marshal

namespace Reader

variable {α β : Type}

/-! ### What a combinator answers -/

theorem map_eq_ok {f : α → β} {r : Reader α} {bs : List UInt8} {b : β} {n : Nat} :
    r.map f bs = .ok (b, n) ↔ ∃ a, r bs = .ok (a, n) ∧ f a = b := by
  unfold map
  constructor
  · intro h
    split at h
    · cases h
    · rename_i a k ha
      cases h
      exact ⟨a, ha, rfl⟩
  · rintro ⟨a, ha, rfl⟩
    simp only [ha]

theorem map_eq_error {f : α → β} {r : Reader α} {bs : List UInt8} {e : Fault} :
    r.map f bs = .error e ↔ r bs = .error e := by
  unfold map
  rcases h : r bs with e' | ⟨a, k⟩ <;> simp

theorem andThen_eq_ok {r : Reader α} {next : α → Reader β} {bs : List UInt8} {b : β} {k : Nat} :
    r.andThen next bs = .ok (b, k) ↔
      ∃ a n m, r bs = .ok (a, n) ∧ next a (bs.drop n) = .ok (b, m) ∧ n + m = k := by
  unfold andThen
  constructor
  · intro h
    split at h
    · cases h
    · rename_i a n ha
      split at h
      · cases h
      · rename_i b' m hb
        cases h
        exact ⟨a, n, m, ha, hb, rfl⟩
  · rintro ⟨a, n, m, ha, hb, rfl⟩
    simp only [ha, hb]

theorem andThen_eq_error {r : Reader α} {next : α → Reader β} {bs : List UInt8} {e : Fault} :
    r.andThen next bs = .error e ↔
      r bs = .error e ∨ ∃ a n, r bs = .ok (a, n) ∧ next a (bs.drop n) = .error e := by
  unfold andThen
  constructor
  · intro h
    split at h
    · rename_i e' he
      cases h
      exact .inl he
    · rename_i a n ha
      split at h
      · rename_i e' he
        cases h
        exact .inr ⟨a, n, ha, he⟩
      · cases h
  · rintro (he | ⟨a, n, ha, he⟩)
    · simp only [he]
    · simp only [ha, he]

theorem refine_eq_ok {f : α → Except Fault β} {r : Reader α} {bs : List UInt8} {b : β} {n : Nat} :
    r.refine f bs = .ok (b, n) ↔ ∃ a, r bs = .ok (a, n) ∧ f a = .ok b := by
  unfold refine
  constructor
  · intro h
    split at h
    · cases h
    · rename_i a k ha
      split at h
      · cases h
      · rename_i b' hb
        cases h
        exact ⟨a, ha, hb⟩
  · rintro ⟨a, ha, hb⟩
    simp only [ha, hb]

theorem refine_eq_error {f : α → Except Fault β} {r : Reader α} {bs : List UInt8} {e : Fault} :
    r.refine f bs = .error e ↔
      r bs = .error e ∨ ∃ a n, r bs = .ok (a, n) ∧ f a = .error e := by
  unfold refine
  constructor
  · intro h
    split at h
    · rename_i e' he
      cases h
      exact .inl he
    · rename_i a n ha
      split at h
      · rename_i e' he
        cases h
        exact .inr ⟨a, n, ha, he⟩
      · cases h
  · rintro (he | ⟨a, n, ha, he⟩)
    · simp only [he]
    · simp only [ha, he]

theorem take_eq_ok {k n : Nat} {bs cs : List UInt8} :
    Reader.take k bs = .ok (cs, n) ↔ k ≤ bs.length ∧ bs.take k = cs ∧ k = n := by
  simp only [Reader.take, atLeast_iff]
  by_cases h : k ≤ bs.length <;> simp [h]

theorem take_eq_error {k : Nat} {bs : List UInt8} {e : Fault} :
    Reader.take k bs = .error e ↔ bs.length < k ∧ e = .truncated := by
  simp only [Reader.take, atLeast_iff]
  by_cases h : k ≤ bs.length
  · simp [h, Nat.not_lt.2 h]
  · simp [h, Nat.lt_of_not_le h, eq_comm]

/-! ### Reading back what was written -/

/-- From every input of fewer than `m` bytes that starts with `bs`, the reader takes `bs` and yields
`a`. -/
def Reads (m : Nat) (r : Reader α) (bs : List UInt8) (a : α) : Prop :=
  ∀ rest, (bs ++ rest).length < m → r (bs ++ rest) = .ok (a, bs.length)

theorem reads_pure (m : Nat) (a : α) : (Reader.pure a).Reads m [] a := fun _ _ => rfl

theorem reads_byte (m : Nat) (b : UInt8) : Reader.byte.Reads m [b] b := fun _ _ => rfl

theorem reads_take {k m : Nat} {bs : List UInt8} (h : bs.length = k) :
    (Reader.take k).Reads m bs bs := by
  subst h
  intro rest _
  exact take_eq_ok.2 ⟨by simp, List.take_left, rfl⟩

theorem Reads.map {m : Nat} {r : Reader α} {bs : List UInt8} {a : α} (h : r.Reads m bs a)
    (f : α → β) : (r.map f).Reads m bs (f a) :=
  fun rest hr => map_eq_ok.2 ⟨a, h rest hr, rfl⟩

theorem Reads.refine {m : Nat} {r : Reader α} {bs : List UInt8} {a : α} {b : β}
    {f : α → Except Fault β} (h : r.Reads m bs a) (hf : f a = .ok b) :
    (r.refine f).Reads m bs b :=
  fun rest hr => refine_eq_ok.2 ⟨a, h rest hr, hf⟩

/-- The second reader sees an input that is shorter by what the first one used. -/
theorem Reads.andThen {m m' : Nat} {r : Reader α} {next : α → Reader β} {bs cs : List UInt8}
    {a : α} {b : β} (h : r.Reads m bs a) (h' : (next a).Reads m' cs b) (hm : m ≤ m' + bs.length) :
    (r.andThen next).Reads m (bs ++ cs) b := by
  intro rest hr
  rw [List.append_assoc] at hr ⊢
  refine andThen_eq_ok.2 ⟨a, bs.length, cs.length, h _ hr, ?_, by simp⟩
  rw [List.drop_left]
  refine h' rest ?_
  rw [List.length_append] at hr
  omega

theorem Reads.byte_andThen {m : Nat} {b : UInt8} {next : UInt8 → Reader β} {cs : List UInt8} {a : β}
    (h : (next b).Reads (m - 1) cs a) : (Reader.byte.andThen next).Reads m (b :: cs) a :=
  (reads_byte m b).andThen h (by simp only [List.length_singleton]; omega)

/-! ### The least number of bytes used -/

/-- A successful read uses at least `k` bytes. -/
def Uses (k : Nat) (r : Reader α) : Prop := ∀ ⦃bs a n⦄, r bs = .ok (a, n) → k ≤ n

theorem uses_byte : Reader.byte.Uses 1 := by
  intro bs a n h
  cases bs with
  | nil => cases h
  | cons b bs => cases h; exact Nat.le_refl 1

theorem uses_take (k : Nat) : (Reader.take k).Uses k :=
  fun _ _ _ h => (take_eq_ok.1 h).2.2.le

theorem Uses.map {k : Nat} {r : Reader α} (h : r.Uses k) (f : α → β) : (r.map f).Uses k := by
  intro bs b n hb
  obtain ⟨a, ha, -⟩ := map_eq_ok.1 hb
  exact h ha

theorem Uses.refine {k : Nat} {r : Reader α} (h : r.Uses k) (f : α → Except Fault β) :
    (r.refine f).Uses k := by
  intro bs b n hb
  obtain ⟨a, ha, -⟩ := refine_eq_ok.1 hb
  exact h ha

theorem Uses.andThen {k : Nat} {r : Reader α} (h : r.Uses k) (next : α → Reader β) :
    (r.andThen next).Uses k := by
  intro bs b n hb
  obtain ⟨a, i, j, ha, -, rfl⟩ := andThen_eq_ok.1 hb
  exact (h ha).trans (Nat.le_add_right i j)

theorem Uses.andThen_right {k : Nat} {next : α → Reader β} (h : ∀ a, (next a).Uses k)
    (r : Reader α) : (r.andThen next).Uses k := by
  intro bs b n hb
  obtain ⟨a, i, j, -, hj, rfl⟩ := andThen_eq_ok.1 hb
  exact (h a hj).trans (Nat.le_add_left j i)

/-! ### Answers on two inputs -/

/-- Two inputs have the same number of bytes behind them, the first out of `L` and the second out of
`L'`. -/
def Level (L L' : Nat) (bs bs' : List UInt8) : Prop := bs.length + L' = bs'.length + L

theorem isPrefix_of_take_add {bs bs' : List UInt8} {n m : Nat} (h : bs.take (n + m) <+: bs') :
    bs.take n <+: bs' :=
  (List.take_prefix_take_left (Nat.le_add_right n m)).trans h

theorem take_drop_isPrefix {bs bs' : List UInt8} {n m : Nat} (hn : n ≤ bs.length)
    (h : bs.take (n + m) <+: bs') : (bs.drop n).take m <+: bs'.drop n := by
  have h' := h.drop n
  rwa [List.take_add, List.drop_append, List.drop_eq_nil_of_le (List.length_take_le n bs),
    List.nil_append, List.length_take, Nat.min_eq_left hn, Nat.sub_self, List.drop_zero] at h'

theorem le_length_of_isPrefix {bs bs' : List UInt8} {n : Nat} (hn : n ≤ bs.length)
    (h : bs.take n <+: bs') : n ≤ bs'.length := by
  have := h.length_le
  rwa [List.length_take, Nat.min_eq_left hn] at this

theorem length_drop_lt {m n : Nat} {bs : List UInt8} (h : bs.length < m) :
    (bs.drop n).length < m := by
  rw [List.length_drop]
  omega

theorem Level.drop {L L' n : Nat} {bs bs' : List UInt8} (h : Level L L' bs bs')
    (hn : n ≤ bs.length) (hn' : n ≤ bs'.length) : Level L L' (bs.drop n) (bs'.drop n) := by
  simp only [Level, List.length_drop] at h ⊢
  omega

/-- What the first reader answers on an input, the second answers on an input that goes on like it
as far as the first reader looked.  That is as far as it read if it succeeded, and the whole input
if it found a fault in it.  If the input ran out nothing is promised. -/
structure Tracks (L L' : Nat) (r r' : Reader α) : Prop where
  within : ∀ ⦃bs a n⦄, r bs = .ok (a, n) → n ≤ bs.length
  ok : ∀ ⦃bs bs' a n⦄, Level L L' bs bs' → bs.take n <+: bs' → r bs = .ok (a, n) →
    r' bs' = .ok (a, n)
  error : ∀ ⦃bs bs' e⦄, Level L L' bs bs' → bs <+: bs' → e ≠ .truncated → r bs = .error e →
    r' bs' = .error e

theorem tracks_pure (L L' : Nat) (a : α) : (Reader.pure a).Tracks L L' (Reader.pure a) where
  within bs a n h := by cases h; exact Nat.zero_le _
  ok bs bs' a n _ _ h := h
  error bs bs' e _ _ _ h := h

theorem tracks_fail (L L' : Nat) (e : Fault) :
    Tracks L L' (fun _ => .error e : Reader α) (fun _ => .error e) where
  within bs a n h := by cases h
  ok bs bs' a n _ _ h := h
  error bs bs' e _ _ _ h := h

theorem tracks_byte (L L' : Nat) : Reader.byte.Tracks L L' Reader.byte where
  within bs a n h := by
    cases bs with
    | nil => cases h
    | cons b bs => cases h; simp
  ok bs bs' a n _ hp h := by
    cases bs with
    | nil => cases h
    | cons b bs =>
      cases h
      obtain ⟨t, rfl⟩ := hp
      rfl
  error bs bs' e _ _ he h := by
    cases bs with
    | nil => cases h; exact absurd rfl he
    | cons b bs => cases h

theorem tracks_take (L L' k : Nat) : (Reader.take k).Tracks L L' (Reader.take k) where
  within bs a n h := by
    obtain ⟨hk, -, rfl⟩ := take_eq_ok.1 h
    exact hk
  ok bs bs' a n _ hp h := by
    obtain ⟨hk, rfl, rfl⟩ := take_eq_ok.1 h
    have hk' := le_length_of_isPrefix hk hp
    refine take_eq_ok.2 ⟨hk', ?_, rfl⟩
    obtain ⟨t, rfl⟩ := hp
    rw [List.take_append_of_le_length (by simp [hk]), List.take_take, Nat.min_self]
  error bs bs' e _ _ he h := absurd (take_eq_error.1 h).2 he

theorem Tracks.map {L L' : Nat} {r r' : Reader α} (h : r.Tracks L L' r') (f : α → β) :
    (r.map f).Tracks L L' (r'.map f) where
  within bs b n hb := by
    obtain ⟨a, ha, -⟩ := map_eq_ok.1 hb
    exact h.within ha
  ok bs bs' b n hl hp hb := by
    obtain ⟨a, ha, hf⟩ := map_eq_ok.1 hb
    exact map_eq_ok.2 ⟨a, h.ok hl hp ha, hf⟩
  error bs bs' e hl hp he hb := map_eq_error.2 (h.error hl hp he (map_eq_error.1 hb))

theorem Tracks.refine {L L' : Nat} {r r' : Reader α} (h : r.Tracks L L' r')
    (f : α → Except Fault β) : (r.refine f).Tracks L L' (r'.refine f) where
  within bs b n hb := by
    obtain ⟨a, ha, -⟩ := refine_eq_ok.1 hb
    exact h.within ha
  ok bs bs' b n hl hp hb := by
    obtain ⟨a, ha, hf⟩ := refine_eq_ok.1 hb
    exact refine_eq_ok.2 ⟨a, h.ok hl hp ha, hf⟩
  error bs bs' e hl hp he hb := by
    rcases refine_eq_error.1 hb with hr | ⟨a, n, ha, hf⟩
    · exact refine_eq_error.2 (.inl (h.error hl hp he hr))
    · exact refine_eq_error.2 (.inr ⟨a, n, h.ok hl ((List.take_prefix n bs).trans hp) ha, hf⟩)

theorem Tracks.andThen {L L' : Nat} {r r' : Reader α} {next next' : α → Reader β}
    (h : r.Tracks L L' r') (hnext : ∀ a, (next a).Tracks L L' (next' a)) :
    (r.andThen next).Tracks L L' (r'.andThen next') where
  within bs b k hb := by
    obtain ⟨a, n, m, ha, hm, rfl⟩ := andThen_eq_ok.1 hb
    have hn := h.within ha
    have hm' := (hnext a).within hm
    rw [List.length_drop] at hm'
    omega
  ok bs bs' b k hl hp hb := by
    obtain ⟨a, n, m, ha, hm, rfl⟩ := andThen_eq_ok.1 hb
    have hn := h.within ha
    have hp' := isPrefix_of_take_add hp
    have hl' := hl.drop hn (le_length_of_isPrefix hn hp')
    exact andThen_eq_ok.2
      ⟨a, n, m, h.ok hl hp' ha, (hnext a).ok hl' (take_drop_isPrefix hn hp) hm, rfl⟩
  error bs bs' e hl hp he hb := by
    rcases andThen_eq_error.1 hb with hr | ⟨a, n, ha, hm⟩
    · exact andThen_eq_error.2 (.inl (h.error hl hp he hr))
    · have hn := h.within ha
      have hl' := hl.drop hn (hn.trans hp.length_le)
      exact andThen_eq_error.2 (.inr ⟨a, n, h.ok hl ((List.take_prefix n bs).trans hp) ha,
        (hnext a).error hl' (hp.drop n) he hm⟩)

end Reader

end Marshal

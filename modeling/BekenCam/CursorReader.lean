import BekenCam.TextReader

/-!
# Readers over memory

A cursor moves through memory that goes on behind the text. It knows where the text ends, but
nothing keeps it from looking further; every address it looks at is kept. A reader over memory
mirrors a reader over texts where it never looks behind the end and both take the same.
-/
namespace BekenCam

structure Cursor where
  p : ℕ
  looked : List ℕ

/-- The bytes of memory, the end of the text, and the cursor. -/
def CursorM (α : Type) := (ℕ → UInt8) → ℕ → Cursor → Option α × Cursor

namespace CursorM

variable {α β : Type}

def bind (m : CursorM α) (f : α → CursorM β) : CursorM β := fun mem stop c =>
  match m mem stop c with
  | (some a, c₁) => f a mem stop c₁
  | (none, c₁) => (none, c₁)

def orElse (m : CursorM α) (n : Unit → CursorM α) : CursorM α := fun mem stop c =>
  match m mem stop c with
  | (some a, c₁) => (some a, c₁)
  | (none, c₁) => n () mem stop c₁

instance : Monad CursorM where
  pure a _ _ c := (some a, c)
  bind := bind

instance : Alternative CursorM where
  failure _ _ c := (none, c)
  orElse := orElse

/-- `p >= end`. -/
def atEnd : CursorM Bool := fun _ stop c => (some (decide (stop ≤ c.p)), c)

/-- `end - p`. -/
def left : CursorM ℕ := fun _ stop c => (some (stop - c.p), c)

/-- `*p`. -/
def peek : CursorM UInt8 := fun mem _ c => (some (mem c.p), { c with looked := c.p :: c.looked })

/-- `p += n`. -/
def advance (n : ℕ) : CursorM Unit := fun _ _ c => (some (), { c with p := c.p + n })

/-- `*p++`. -/
def next : CursorM UInt8 := do
  let b ← peek
  advance 1
  return b

/-- `memcmp(p, word, n) == 0`. -/
def same (word : List UInt8) : CursorM Bool := fun mem _ c =>
  (some (decide ((List.range word.length).map (fun i => mem (c.p + i)) = word)),
    { c with looked := (List.range word.length).map (c.p + ·) ++ c.looked })

section Run

variable {mem : ℕ → UInt8} {stop : ℕ} {c : Cursor}

@[simp] theorem pure_run (a : α) : (pure a : CursorM α) mem stop c = (some a, c) := rfl

@[simp] theorem failure_run : (failure : CursorM α) mem stop c = (none, c) := rfl

@[simp] theorem atEnd_bind (f : Bool → CursorM β) :
    (atEnd >>= f) mem stop c = f (decide (stop ≤ c.p)) mem stop c := rfl

@[simp] theorem left_bind (f : ℕ → CursorM β) :
    (left >>= f) mem stop c = f (stop - c.p) mem stop c := rfl

@[simp] theorem peek_bind (f : UInt8 → CursorM β) :
    (peek >>= f) mem stop c = f (mem c.p) mem stop ⟨c.p, c.p :: c.looked⟩ := rfl

@[simp] theorem next_bind (f : UInt8 → CursorM β) :
    (next >>= f) mem stop c = f (mem c.p) mem stop ⟨c.p + 1, c.p :: c.looked⟩ := rfl

@[simp] theorem advance_bind (n : ℕ) (f : Unit → CursorM β) :
    (advance n >>= f) mem stop c = f () mem stop ⟨c.p + n, c.looked⟩ := rfl

@[simp] theorem same_bind (word : List UInt8) (f : Bool → CursorM β) :
    (same word >>= f) mem stop c =
      f (decide ((List.range word.length).map (fun i => mem (c.p + i)) = word)) mem stop
        ⟨c.p, (List.range word.length).map (c.p + ·) ++ c.looked⟩ := rfl

theorem bind_of_some {m : CursorM α} {a : α} {c₁ : Cursor} (h : m mem stop c = (some a, c₁))
    (f : α → CursorM β) : (m >>= f) mem stop c = f a mem stop c₁ := by
  change CursorM.bind m f mem stop c = _
  rw [CursorM.bind, h]

theorem bind_of_none {m : CursorM α} {c₁ : Cursor} (h : m mem stop c = (none, c₁))
    (f : α → CursorM β) : (m >>= f) mem stop c = (none, c₁) := by
  change CursorM.bind m f mem stop c = _
  rw [CursorM.bind, h]

end Run

/-! ## The text in front of a cursor -/

/-- The bytes from `p` to the end. -/
def text (mem : ℕ → UInt8) (stop p : ℕ) : List UInt8 :=
  (List.range (stop - p)).map fun i => mem (p + i)

@[simp] theorem length_text (mem : ℕ → UInt8) (stop p : ℕ) :
    (text mem stop p).length = stop - p := by simp [text]

theorem text_of_le (mem : ℕ → UInt8) {stop p : ℕ} (h : stop ≤ p) : text mem stop p = [] := by
  rw [text, Nat.sub_eq_zero_of_le h]
  rfl

theorem text_of_lt (mem : ℕ → UInt8) {stop p : ℕ} (h : p < stop) :
    text mem stop p = mem p :: text mem stop (p + 1) := by
  obtain ⟨n, hn⟩ : ∃ n, stop - p = n + 1 := ⟨stop - p - 1, by omega⟩
  rw [text, text, hn, show stop - (p + 1) = n by omega, List.range_succ_eq_map, List.map_cons,
    List.map_map]
  congr 1
  apply List.map_congr_left
  intro i _
  change mem (p + (i + 1)) = mem (p + 1 + i)
  congr 1
  omega

theorem take_text (mem : ℕ → UInt8) {stop p n : ℕ} (h : n ≤ stop - p) :
    (text mem stop p).take n = (List.range n).map fun i => mem (p + i) := by
  rw [text, ← List.map_take, List.take_range, Nat.min_eq_left h]

theorem drop_text (mem : ℕ → UInt8) (stop p n : ℕ) :
    (text mem stop p).drop n = text mem stop (p + n) := by
  induction n generalizing p with
  | zero => rfl
  | succ n ih =>
    by_cases h : p < stop
    · rw [text_of_lt mem h, List.drop_succ_cons, ih, Nat.add_right_comm, Nat.add_assoc]
    · rw [text_of_le mem (by omega), text_of_le mem (by omega), List.drop_nil]

/-! ## Mirroring a reader of texts -/

/-- The cursor and all it has looked at are in the text. -/
structure Inside (stop : ℕ) (c : Cursor) : Prop where
  p : c.p ≤ stop
  looked : ∀ a ∈ c.looked, a < stop

/-- From here the cursor stays inside, and both take the same. A place is not compared behind a
failure, unless `exact`. -/
structure MirrorsAt (exact : Prop) (m : CursorM α) (n : ReadM α) (mem : ℕ → UInt8) (stop : ℕ)
    (c : Cursor) : Prop where
  inside : Inside stop (m mem stop c).2
  result : (n (text mem stop c.p)).1 = (m mem stop c).1
  rest : exact ∨ (m mem stop c).1 ≠ none →
    (n (text mem stop c.p)).2 = text mem stop (m mem stop c).2.p

def Mirrors (exact : Prop) (m : CursorM α) (n : ReadM α) : Prop :=
  ∀ mem stop c, Inside stop c → MirrorsAt exact m n mem stop c

variable {exact : Prop} {m m' : CursorM α} {n n' : ReadM α}

theorem MirrorsAt.of_run {mem : ℕ → UInt8} {stop : ℕ} {c c' : Cursor} {a : Option α}
    {r : List UInt8} (hm : m mem stop c = (a, c')) (hn : n (text mem stop c.p) = (a, r))
    (hin : Inside stop c') (hr : r = text mem stop c'.p) : MirrorsAt exact m n mem stop c := by
  refine ⟨?_, ?_, fun _ => ?_⟩
  · rw [hm]
    exact hin
  · rw [hm, hn]
  · rw [hm, hn]
    exact hr

/-- A loop that is given what is left. -/
theorem MirrorsAt.left {mem : ℕ → UInt8} {stop : ℕ} {c : Cursor} {f : ℕ → CursorM α}
    (h : MirrorsAt exact (f (stop - c.p)) n mem stop c) :
    MirrorsAt exact (left >>= f) n mem stop c :=
  ⟨h.inside, h.result, h.rest⟩

theorem mirrors_pure (a : α) : Mirrors exact (pure a) (pure a) := fun _ _ _ hc =>
  .of_run rfl rfl hc rfl

theorem mirrors_failure : Mirrors exact (failure : CursorM α) (failure : ReadM α) :=
  fun _ _ _ hc => .of_run rfl rfl hc rfl

theorem MirrorsAt.bind {mem : ℕ → UInt8} {stop : ℕ} {c : Cursor} {f : α → CursorM β}
    {g : α → ReadM β} (h : MirrorsAt exact m n mem stop c)
    (hf : ∀ a c', m mem stop c = (some a, c') → Inside stop c' →
      MirrorsAt exact (f a) (g a) mem stop c') :
    MirrorsAt exact (m >>= f) (n >>= g) mem stop c := by
  obtain ⟨hin, hresult, hrest⟩ := h
  rcases hm : m mem stop c with ⟨_ | a, c'⟩
  · rw [hm] at hin hresult hrest
    have hn : (n >>= g) (text mem stop c.p) = (none, (n (text mem stop c.p)).2) := by
      change ReadM.bind n g _ = _
      rw [ReadM.bind]
      rcases hrun : n (text mem stop c.p) with ⟨_ | a, r⟩
      · rfl
      · rw [hrun] at hresult
        cases hresult
    have hbind := bind_of_none hm f
    refine ⟨?_, ?_, ?_⟩
    · rw [hbind]
      exact hin
    · rw [hbind, hn]
    · rw [hbind, hn]
      exact fun h => hrest (h.imp_right fun hne => absurd rfl hne)
  · rw [hm] at hin hresult hrest
    have hn : (n >>= g) (text mem stop c.p) = g a (text mem stop c'.p) := by
      have hr := hrest (Or.inr nofun)
      change ReadM.bind n g _ = _
      rw [ReadM.bind]
      rcases hrun : n (text mem stop c.p) with ⟨_ | a', r⟩
      · rw [hrun] at hresult
        cases hresult
      · rw [hrun] at hresult hr
        obtain rfl := Option.some.inj hresult
        dsimp only at hr ⊢
        rw [hr]
    have hbind := bind_of_some hm f
    obtain ⟨hin', hresult', hrest'⟩ := hf a c' hm hin
    refine ⟨?_, ?_, ?_⟩
    · rw [hbind]
      exact hin'
    · rw [hbind, hn]
      exact hresult'
    · rw [hbind, hn]
      exact hrest'

theorem Mirrors.bind {f : α → CursorM β} {g : α → ReadM β} (h : Mirrors exact m n)
    (hf : ∀ a, Mirrors exact (f a) (g a)) : Mirrors exact (m >>= f) (n >>= g) :=
  fun mem stop c hc => (h mem stop c hc).bind fun a c' _ hc' => hf a mem stop c' hc'

theorem Mirrors.ite {c : Prop} [Decidable c] (h : Mirrors exact m n) (h' : Mirrors exact m' n') :
    Mirrors exact (if c then m else m') (if c then n else n') := by
  split
  · exact h
  · exact h'

/-- The next alternative goes on where the first one failed, so that place matters. -/
theorem Mirrors.orElse (h : Mirrors True m n) (h' : Mirrors exact m' n') :
    Mirrors exact (m <|> m') (n <|> n') := by
  intro mem stop c hc
  obtain ⟨hin, hresult, hrest⟩ := h mem stop c hc
  have hr := hrest (Or.inl trivial)
  rcases hm : m mem stop c with ⟨_ | a, c'⟩
  · rw [hm] at hin hresult hr
    have hrun : n (text mem stop c.p) = (none, text mem stop c'.p) := Prod.ext hresult hr
    have hleft : (m <|> m') mem stop c = m' mem stop c' := by
      change CursorM.orElse m (fun _ => m') mem stop c = _
      rw [CursorM.orElse, hm]
    have hright : (n <|> n') (text mem stop c.p) = n' (text mem stop c'.p) := by
      change ReadM.orElse n (fun _ => n') _ = _
      rw [ReadM.orElse, hrun]
    obtain ⟨hin', hresult', hrest'⟩ := h' mem stop c' hin
    refine ⟨?_, ?_, ?_⟩
    · rw [hleft]
      exact hin'
    · rw [hleft, hright]
      exact hresult'
    · rw [hleft, hright]
      exact hrest'
  · rw [hm] at hin hresult hr
    have hrun : n (text mem stop c.p) = (some a, text mem stop c'.p) := Prod.ext hresult hr
    have hleft : CursorM.orElse m (fun _ => m') mem stop c = (some a, c') := by
      rw [CursorM.orElse, hm]
    have hright : ReadM.orElse n (fun _ => n') (text mem stop c.p) =
        (some a, text mem stop c'.p) := by
      rw [ReadM.orElse, hrun]
    exact .of_run hleft hright hin rfl

end CursorM
end BekenCam

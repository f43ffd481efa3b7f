import Mathlib.Tactic

/-!
# Readers

A reader takes bytes from the front of a text and may fail. Where it fails, the text stays where the
reader got to: the next alternative goes on from there.
-/
namespace BekenCam

/-- A result, unless the reader fails, and the rest of the text. -/
def ReadM (α : Type) := List UInt8 → Option α × List UInt8

namespace ReadM

variable {α β : Type} {m n : ReadM α} {f : α → ReadM β} {a : α} {b : β} {r r' : List UInt8}

def bind (m : ReadM α) (f : α → ReadM β) : ReadM β := fun r =>
  match m r with
  | (some a, r₁) => f a r₁
  | (none, r₁) => (none, r₁)

def orElse (m : ReadM α) (n : Unit → ReadM α) : ReadM α := fun r =>
  match m r with
  | (some a, r₁) => (some a, r₁)
  | (none, r₁) => n () r₁

instance : Monad ReadM where
  pure a r := (some a, r)
  bind := bind

instance : Alternative ReadM where
  failure r := (none, r)
  orElse := orElse

theorem id_map (m : ReadM α) : id <$> m = m := by
  funext r
  change ReadM.bind m _ r = _
  unfold ReadM.bind
  rcases m r with ⟨_ | a, r₁⟩ <;> rfl

theorem bind_assoc {γ : Type} (m : ReadM α) (f : α → ReadM β) (g : β → ReadM γ) :
    m >>= f >>= g = m >>= fun a => f a >>= g := by
  funext r
  change ReadM.bind (ReadM.bind m f) g r = ReadM.bind m (fun a => ReadM.bind (f a) g) r
  unfold ReadM.bind
  rcases m r with ⟨_ | a, r₁⟩ <;> rfl

instance : LawfulMonad ReadM := LawfulMonad.mk' ReadM id_map (fun _ _ => rfl) bind_assoc

@[simp] theorem map_failure (f : α → β) : f <$> (failure : ReadM α) = failure := rfl

/-- The reader takes `a` from `r` and leaves `r'`. -/
def Takes (m : ReadM α) (r : List UInt8) (a : α) (r' : List UInt8) : Prop := m r = (some a, r')

/-- The reader fails on `r` at `r'`. -/
def Fails (m : ReadM α) (r r' : List UInt8) : Prop := m r = (none, r')

@[simp] theorem takes_pure {a' : α} : Takes (pure a) r a' r' ↔ a = a' ∧ r = r' := by
  change (some a, r) = (some a', r') ↔ _
  simp

@[simp] theorem not_takes_failure : ¬Takes (failure : ReadM α) r a r' := nofun

@[simp] theorem not_fails_pure {a' : α} : ¬Fails (pure a') r r' := nofun

@[simp] theorem fails_failure : Fails (failure : ReadM α) r r' ↔ r = r' := by
  change (none, r) = (none, r') ↔ _
  simp

theorem takes_ite {c : Prop} [Decidable c] {n : ReadM α} :
    Takes (if c then m else n) r a r' ↔ c ∧ Takes m r a r' ∨ ¬c ∧ Takes n r a r' := by
  by_cases hc : c
  · simp [hc]
  · simp [hc]

theorem takes_bind : Takes (m >>= f) r b r' ↔ ∃ a r₁, Takes m r a r₁ ∧ Takes (f a) r₁ b r' := by
  change ReadM.bind m f r = _ ↔ _
  unfold ReadM.bind Takes
  rcases m r with ⟨_ | a₁, r₁⟩ <;> simp

theorem fails_bind : Fails (m >>= f) r r' ↔
    Fails m r r' ∨ ∃ a r₁, Takes m r a r₁ ∧ Fails (f a) r₁ r' := by
  change ReadM.bind m f r = _ ↔ _
  unfold ReadM.bind Takes Fails
  rcases m r with ⟨_ | a₁, r₁⟩ <;> simp

theorem takes_map {g : α → β} :
    Takes (g <$> m) r b r' ↔ ∃ a, Takes m r a r' ∧ g a = b := by
  change ReadM.bind m _ r = _ ↔ _
  unfold ReadM.bind Takes
  rcases m r with ⟨_ | a, r₁⟩
  · simp
  · change (some (g a), r₁) = _ ↔ _
    simp [and_comm]

theorem bind_congr {g : α → ReadM β} (h : ∀ a r₁, Takes m r a r₁ → f a r₁ = g a r₁) :
    (m >>= f) r = (m >>= g) r := by
  change ReadM.bind m f r = ReadM.bind m g r
  unfold ReadM.bind
  rcases hm : m r with ⟨_ | a, r₁⟩
  · rfl
  · exact h a r₁ hm

theorem takes_orElse : Takes (m <|> n) r a r' ↔
    Takes m r a r' ∨ ∃ r₁, Fails m r r₁ ∧ Takes n r₁ a r' := by
  change ReadM.orElse m (fun _ => n) r = _ ↔ _
  unfold ReadM.orElse Takes Fails
  rcases m r with ⟨_ | a₁, r₁⟩ <;> simp

theorem fails_orElse : Fails (m <|> n) r r' ↔ ∃ r₁, Fails m r r₁ ∧ Fails n r₁ r' := by
  change ReadM.orElse m (fun _ => n) r = _ ↔ _
  unfold ReadM.orElse Fails
  rcases m r with ⟨_ | a₁, r₁⟩ <;> simp

/-- A reader whose result is replaced by `b`. -/
theorem takes_replace {b' : β} :
    Takes (m >>= fun _ => pure b) r b' r' ↔ (∃ a, Takes m r a r') ∧ b = b' := by
  rw [takes_bind]
  constructor
  · rintro ⟨a, r₁, hm, hb⟩
    obtain ⟨rfl, rfl⟩ := takes_pure.mp hb
    exact ⟨⟨a, hm⟩, rfl⟩
  · rintro ⟨⟨a, hm⟩, rfl⟩
    exact ⟨a, r', hm, takes_pure.mpr ⟨rfl, rfl⟩⟩

theorem fails_replace : Fails (m >>= fun _ => (pure b : ReadM β)) r r' ↔ Fails m r r' := by
  rw [fails_bind]
  constructor
  · rintro (h | ⟨a, r₁, -, h⟩)
    · exact h
    · exact absurd h not_fails_pure
  · exact Or.inl

theorem Takes.unique {a' : α} {r₁ : List UInt8} (h : Takes m r a r₁) (h' : Takes m r a' r') :
    a = a' ∧ r₁ = r' := by
  have heq := h.symm.trans h'
  simpa using heq

/-- The text before and behind every run, whether it fails or not. -/
def Moves (R : List UInt8 → List UInt8 → Prop) (m : ReadM α) : Prop := ∀ r, R r (m r).2

section Moves

variable {R : List UInt8 → List UInt8 → Prop}

theorem Moves.takes (h : Moves R m) (hm : Takes m r a r') : R r r' := by
  have hr := h r
  rwa [hm] at hr

theorem Moves.pure [Std.Refl R] (a : α) : Moves R (pure a : ReadM α) := fun r => Std.Refl.refl r

theorem Moves.failure [Std.Refl R] : Moves R (failure : ReadM α) := fun r => Std.Refl.refl r

theorem Moves.bind [IsTrans (List UInt8) R] (hm : Moves R m) (hf : ∀ a, Moves R (f a)) :
    Moves R (m >>= f) := by
  intro r
  change R r (ReadM.bind m f r).2
  have hr := hm r
  unfold ReadM.bind
  rcases hrun : m r with ⟨_ | a, r₁⟩ <;> rw [hrun] at hr
  · exact hr
  · exact IsTrans.trans _ _ _ hr (hf a r₁)

theorem Moves.orElse [IsTrans (List UInt8) R] (hm : Moves R m) (hn : Moves R n) :
    Moves R (m <|> n) := by
  intro r
  change R r (ReadM.orElse m (fun _ => n) r).2
  have hr := hm r
  unfold ReadM.orElse
  rcases hrun : m r with ⟨_ | a, r₁⟩ <;> rw [hrun] at hr
  · exact IsTrans.trans _ _ _ hr (hn r₁)
  · exact hr

end Moves

end ReadM
end BekenCam

/-!
# Computations

What a sequence of two computations does in terms of each of them, and
properties that pass from the parts to the whole: failing in known ways only
(`FailsOnly`), and with a state always giving a result (`Gives`), keeping an
invariant of the state, on failure too (`Keeps`, and `Confines` if it also
fails in known ways only), and going abreast of another computation
(`Abreast`) or of itself from another state (`Respects`), and coming to the same
from every state (`Fixed`).
-/

namespace Reckon

variable {ε σ α β : Type}

/-! ### Without a state -/

section Except

variable {x : Except ε α} {f : α → Except ε β}

/-- A sequence succeeds when both of its parts do. -/
theorem except_bind_eq_ok {b : β} : (x >>= f) = .ok b ↔ ∃ a, x = .ok a ∧ f a = .ok b := by
  cases x <;> simp [bind, Except.bind]

/-- Behind a success the sequence goes on. -/
theorem except_ok_bind (a : α) (f : α → Except ε β) : (Except.ok a >>= f) = f a :=
  rfl

/-- A result is no fault but one of a kind. -/
def FailsOnly (F : ε → Prop) : Except ε α → Prop
  | .ok _ => True
  | .error e => F e

variable {F : ε → Prop}

/-- A sequence fails only in the ways of its parts. -/
theorem FailsOnly.bind (hx : FailsOnly F x) (hf : ∀ a, x = .ok a → FailsOnly F (f a)) :
    FailsOnly F (x >>= f) := by
  cases x with
  | ok a => exact hf a rfl
  | error e => exact hx

/-- Fewer faults are among more. -/
theorem FailsOnly.mono {G : ε → Prop} (hx : FailsOnly F x) (h : ∀ e, F e → G e) :
    FailsOnly G x := by
  cases x with
  | ok a => trivial
  | error e => exact h e hx

/-- A fault that occurs is one of those. -/
theorem FailsOnly.of_error {e : ε} (hx : FailsOnly F x) (h : x = .error e) : F e := by
  rw [h] at hx
  exact hx

end Except

/-! ### Sequences with a state -/

variable {x : EStateM ε σ α} {f : α → EStateM ε σ β}

/-- A sequence succeeds when both of its parts do. -/
theorem bind_eq_ok {b : β} {s s' : σ} :
    (x >>= f) s = .ok b s' ↔ ∃ a s₁, x s = .ok a s₁ ∧ f a s₁ = .ok b s' := by
  show EStateM.bind x f s = _ ↔ _
  unfold EStateM.bind
  cases hx : x s with
  | ok a s₁ =>
      constructor
      · intro h
        exact ⟨a, s₁, rfl, h⟩
      · rintro ⟨a', s₁', hok, h⟩
        cases hok
        exact h
  | error e s₁ => simp

/-- Behind a success the sequence goes on in the state that it left. -/
theorem bind_of_ok {a : α} {s s₁ : σ} (hx : x s = .ok a s₁) (f : α → EStateM ε σ β) :
    (x >>= f) s = f a s₁ := by
  show EStateM.bind x f s = _
  simp [EStateM.bind, hx]

/-- A sequence fails when its first part does, or its second part behind it. -/
theorem bind_eq_error {e : ε} {s s' : σ} :
    (x >>= f) s = .error e s' ↔
      x s = .error e s' ∨ ∃ a s₁, x s = .ok a s₁ ∧ f a s₁ = .error e s' := by
  show EStateM.bind x f s = _ ↔ _
  unfold EStateM.bind
  cases hx : x s with
  | ok a s₁ =>
      constructor
      · intro h
        exact Or.inr ⟨a, s₁, rfl, h⟩
      · rintro (herror | ⟨a', s₁', hok, h⟩)
        · cases herror
        · cases hok
          exact h
  | error e₁ s₁ => simp

/-- A result is a fault. -/
def fails : EStateM.Result ε σ α → Bool
  | .ok _ _ => false
  | .error _ _ => true

/-! ### Always giving a result -/

/-- A computation succeeds from every state. -/
def Gives (x : EStateM ε σ α) : Prop :=
  ∀ s, ∃ a s', x s = .ok a s'

/-- An answer at once is given in any state. -/
theorem Gives.pure (a : α) : Gives (Pure.pure a : EStateM ε σ α) :=
  fun s => ⟨a, s, rfl⟩

/-- A sequence gives an answer if its parts do. -/
theorem Gives.bind (hx : Gives x) (hf : ∀ a, Gives (f a)) : Gives (x >>= f) := by
  intro s
  obtain ⟨a, s₁, ha⟩ := hx s
  obtain ⟨b, s', hb⟩ := hf a s₁
  exact ⟨b, s', (bind_of_ok ha f).trans hb⟩

/-- Behind a part that always succeeds only the rest can fail. -/
theorem Gives.bind_eq_error (hx : Gives x) {e : ε} {s s' : σ} (h : (x >>= f) s = .error e s') :
    ∃ a s₁, x s = .ok a s₁ ∧ f a s₁ = .error e s' := by
  obtain ⟨a, s₁, ha⟩ := hx s
  exact ⟨a, s₁, ha, (bind_of_ok ha f).symm.trans h⟩

/-! ### Failing in known ways -/

/-- What a result satisfies whose state keeps an invariant, whose answer has a
property if there is one, and whose fault is of a kind. -/
def Confined (I : σ → Prop) (F : ε → Prop) (Q : α → Prop) : EStateM.Result ε σ α → Prop
  | .ok a s => I s ∧ Q a
  | .error e s => I s ∧ F e

/-- A computation keeps an invariant of the state, what it answers has a
property, and it fails only with faults of a kind. -/
def Confines (I : σ → Prop) (F : ε → Prop) (x : EStateM ε σ α) (Q : α → Prop) : Prop :=
  ∀ s, I s → Confined I F Q (x s)

variable {I : σ → Prop} {Q : α → Prop} {R : β → Prop}

section Confines

variable {F : ε → Prop}

/-- An answer at once leaves the state alone. -/
theorem Confines.pure {a : α} (h : Q a) : Confines I F (Pure.pure a : EStateM ε σ α) Q :=
  fun _ hs => ⟨hs, h⟩

/-- A failure leaves the state alone, and need only be one of the allowed. -/
theorem Confines.throw {e : ε} (h : F e) : Confines I F (throw e : EStateM ε σ α) Q :=
  fun _ hs => ⟨hs, h⟩

/-- The answer of the first part is what the second may count on. -/
theorem Confines.bind (hx : Confines I F x Q) (hf : ∀ a, Q a → Confines I F (f a) R) :
    Confines I F (x >>= f) R := by
  intro s hs
  have hconfined := hx s hs
  show Confined I F R (EStateM.bind x f s)
  unfold EStateM.bind
  cases hrun : x s with
  | ok a s₁ =>
      rw [hrun] at hconfined
      exact hf a hconfined.2 s₁ hconfined.1
  | error e s₁ =>
      rw [hrun] at hconfined
      exact hconfined

/-- The state that is looked at satisfies the invariant. -/
theorem Confines.get : Confines I F (get : EStateM ε σ σ) I :=
  fun _ hs => ⟨hs, hs⟩

/-- A change of the state has to keep the invariant. -/
theorem Confines.modify {g : σ → σ} (h : ∀ s, I s → I (g s)) :
    Confines I F (modify g : EStateM ε σ PUnit) fun _ => True :=
  fun s hs => ⟨h s hs, trivial⟩

end Confines

/-! ### Keeping an invariant -/

/-- What a result satisfies whose state keeps an invariant, and whose answer
has a property if there is one. -/
def Kept (I : σ → Prop) (Q : α → Prop) : EStateM.Result ε σ α → Prop
  | .ok a s => I s ∧ Q a
  | .error _ s => I s

/-- A computation keeps an invariant of the state, whether it succeeds or
fails, and what it answers has a property. -/
def Keeps (I : σ → Prop) (x : EStateM ε σ α) (Q : α → Prop) : Prop :=
  ∀ s, I s → Kept I Q (x s)

/-- To keep an invariant is to fail in whatever way. -/
theorem keeps_iff : Keeps I x Q ↔ Confines I (fun _ => True) x Q := by
  refine forall₂_congr fun s hs => ?_
  cases x s with
  | ok a s' => exact Iff.rfl
  | error e s' => exact (and_iff_left trivial).symm

/-- An answer at once leaves the state alone. -/
theorem Keeps.pure {a : α} (h : Q a) : Keeps I (Pure.pure a : EStateM ε σ α) Q :=
  fun _ hs => ⟨hs, h⟩

/-- A failure leaves the state alone. -/
theorem Keeps.throw (e : ε) : Keeps I (throw e : EStateM ε σ α) Q :=
  fun _ hs => hs

/-- The answer of the first part is what the second may count on. -/
theorem Keeps.bind (hx : Keeps I x Q) (hf : ∀ a, Q a → Keeps I (f a) R) :
    Keeps I (x >>= f) R :=
  keeps_iff.mpr ((keeps_iff.mp hx).bind fun a ha => keeps_iff.mp (hf a ha))

/-- The state that is looked at satisfies the invariant. -/
theorem Keeps.get : Keeps I (get : EStateM ε σ σ) I :=
  fun _ hs => ⟨hs, hs⟩

/-- A state that is put has to satisfy the invariant. -/
theorem Keeps.set {s : σ} (h : I s) : Keeps I (set s : EStateM ε σ PUnit) fun _ => True :=
  fun _ _ => ⟨h, trivial⟩

/-- A change of the state with an answer has to keep the invariant. -/
theorem Keeps.modifyGet {g : σ → α × σ} (h : ∀ s, I s → I (g s).2) :
    Keeps I (modifyGet g : EStateM ε σ α) fun _ => True :=
  fun s hs => ⟨h s hs, trivial⟩

/-- A change of the state has to keep the invariant. -/
theorem Keeps.modify {g : σ → σ} (h : ∀ s, I s → I (g s)) :
    Keeps I (modify g : EStateM ε σ PUnit) fun _ => True :=
  fun s hs => ⟨h s hs, trivial⟩

/-! ### Going abreast -/

section Abreast

variable {γ δ : Type} {faults : ε → ε → Prop}

/-- Two results match: two answers that are related together with their states,
or two faults that are related. -/
def Matched (faults : ε → ε → Prop) (post : α → γ → σ → σ → Prop) :
    EStateM.Result ε σ α → EStateM.Result ε σ γ → Prop
  | .ok a s, .ok c t => post a c s t
  | .error e _, .error f _ => faults e f
  | _, _ => False

/-- From related states two computations go to results that match. -/
def Abreast (faults : ε → ε → Prop) (pre : σ → σ → Prop) (x : EStateM ε σ α)
    (y : EStateM ε σ γ) (post : α → γ → σ → σ → Prop) : Prop :=
  ∀ s t, pre s t → Matched faults post (x s) (y t)

/-- What matches an answer is an answer. -/
theorem Matched.of_ok {post : α → γ → σ → σ → Prop} {a : α} {s : σ} {r : EStateM.Result ε σ γ}
    (h : Matched faults post (.ok a s) r) : ∃ c t, r = .ok c t ∧ post a c s t := by
  cases r with
  | ok c t => exact ⟨c, t, rfl, h⟩
  | error f t => exact h.elim

/-- What matches a fault is a fault. -/
theorem Matched.of_error {post : α → γ → σ → σ → Prop} {e : ε} {s : σ}
    {r : EStateM.Result ε σ γ} (h : Matched faults post (.error e s) r) :
    ∃ f t, r = .error f t ∧ faults e f := by
  cases r with
  | ok c t => exact h.elim
  | error f t => exact ⟨f, t, rfl, h⟩

/-- Sequences match when their first parts do, and their second parts behind
them. -/
theorem Matched.bind {y : EStateM ε σ γ} {g : γ → EStateM ε σ δ} {s t : σ}
    {mid : α → γ → σ → σ → Prop} {post : β → δ → σ → σ → Prop}
    (hxy : Matched faults mid (x s) (y t))
    (hfg : ∀ a c s₁ t₁, x s = .ok a s₁ → y t = .ok c t₁ → mid a c s₁ t₁ →
      Matched faults post (f a s₁) (g c t₁)) :
    Matched faults post ((x >>= f) s) ((y >>= g) t) := by
  show Matched faults post (EStateM.bind x f s) (EStateM.bind y g t)
  unfold EStateM.bind
  cases hx : x s with
  | ok a s₁ =>
      cases hy : y t with
      | ok c t₁ =>
          rw [hx, hy] at hxy
          exact hfg a c s₁ t₁ hx hy hxy
      | error e t₁ =>
          rw [hx, hy] at hxy
          exact hxy.elim
  | error e s₁ =>
      cases hy : y t with
      | ok c t₁ =>
          rw [hx, hy] at hxy
          exact hxy.elim
      | error e' t₁ =>
          rw [hx, hy] at hxy
          exact hxy

end Abreast

section Respects

variable {rel : σ → σ → Prop}

/-- From related states a computation goes to related states with the same
answer, which has a property, or it fails with the same fault. -/
def Respects (rel : σ → σ → Prop) (x : EStateM ε σ α) (Q : α → Prop) : Prop :=
  Abreast Eq rel x x fun a b s t => a = b ∧ Q a ∧ rel s t

/-- An answer at once is the same in related states. -/
theorem Respects.pure {a : α} (h : Q a) : Respects rel (Pure.pure a : EStateM ε σ α) Q :=
  fun _ _ hst => ⟨rfl, h, hst⟩

/-- A failure is the same in related states. -/
theorem Respects.throw (e : ε) : Respects rel (throw e : EStateM ε σ α) Q :=
  fun _ _ _ => rfl

/-- A sequence respects a relation if its parts do. -/
theorem Respects.bind (hx : Respects rel x Q) (hf : ∀ a, Q a → Respects rel (f a) R) :
    Respects rel (x >>= f) R := by
  intro s t hst
  refine (hx s t hst).bind fun a b s₁ t₁ _ _ hsame => ?_
  obtain ⟨rfl, ha, hst₁⟩ := hsame
  exact hf a ha s₁ t₁ hst₁

end Respects

/-! ### Coming to the same from every state -/

section Fixed

/-- A computation comes to the same from every state, which it leaves as it is. -/
def Fixed (x : EStateM ε σ α) : Prop :=
  (∃ a, ∀ s, x s = .ok a s) ∨ ∃ e, ∀ s, x s = .error e s

/-- An answer at once looks at no state. -/
theorem Fixed.pure (a : α) : Fixed (Pure.pure a : EStateM ε σ α) :=
  .inl ⟨a, fun _ => rfl⟩

/-- A failure looks at no state. -/
theorem Fixed.throw (e : ε) : Fixed (throw e : EStateM ε σ α) :=
  .inr ⟨e, fun _ => rfl⟩

/-- A sequence looks at no state if its parts do not. -/
theorem Fixed.bind (hx : Fixed x) (hf : ∀ a, Fixed (f a)) : Fixed (x >>= f) := by
  rcases hx with ⟨a, ha⟩ | ⟨e, he⟩
  · rcases hf a with ⟨b, hb⟩ | ⟨e, he⟩
    · exact .inl ⟨b, fun s => (bind_of_ok (ha s) f).trans (hb s)⟩
    · exact .inr ⟨e, fun s => (bind_of_ok (ha s) f).trans (he s)⟩
  · exact .inr ⟨e, fun s => bind_eq_error.mpr (.inl (he s))⟩

/-- What looks at no state keeps every invariant. -/
theorem Fixed.keeps (hx : Fixed x) : Keeps I x fun _ => True := by
  intro s hs
  rcases hx with ⟨a, ha⟩ | ⟨e, he⟩
  · rw [ha]
    exact ⟨hs, trivial⟩
  · rw [he]
    exact hs

/-- What looks at no state respects every relation. -/
theorem Fixed.respects (hx : Fixed x) {rel : σ → σ → Prop} : Respects rel x fun _ => True := by
  intro s t hst
  rcases hx with ⟨a, ha⟩ | ⟨e, he⟩
  · rw [ha, ha]
    exact ⟨rfl, trivial, hst⟩
  · rw [he, he]
    exact rfl

end Fixed

/-! ### What a result answers and what it leaves -/

section Results

/-- What a result answers, whatever the state is. -/
def outcome : EStateM.Result ε σ α → Except ε α
  | .ok a _ => .ok a
  | .error e _ => .error e

/-- The state that a result leaves. -/
def stateOf : EStateM.Result ε σ α → σ
  | .ok _ s | .error _ s => s

/-- An invariant that is kept holds behind the work, however that ends. -/
theorem Keeps.stateOf (hx : Keeps I x Q) {s : σ} (hs : I s) : I (stateOf (x s)) := by
  have hkept := hx s hs
  cases hrun : x s with
  | ok a s' =>
      rw [hrun] at hkept
      exact hkept.1
  | error e s' =>
      rw [hrun] at hkept
      exact hkept

/-- From related states comes the same outcome. -/
theorem Respects.outcome_eq {rel : σ → σ → Prop} (hx : Respects rel x Q) {s t : σ}
    (hst : rel s t) : outcome (x s) = outcome (x t) := by
  have hmatched := hx s t hst
  cases hrun : x s with
  | ok a s' =>
      rw [hrun] at hmatched
      obtain ⟨b, t', hrun', rfl, -⟩ := hmatched.of_ok
      rw [hrun']
      rfl
  | error e s' =>
      rw [hrun] at hmatched
      obtain ⟨f, t', hrun', rfl⟩ := hmatched.of_error
      rw [hrun']
      rfl

end Results

end Reckon

import Mathlib

/-!
# Programs with a trace

A program leaves a list of events and returns a value or stops. `Obeys` says that all of
its events are good and that it only stops in an allowed way. It goes through sequential
composition, so it can be computed for a program from its parts.
-/

/-- A list of events, and a value or a reason to stop. -/
def Traced (ω ε α : Type) : Type := List ω × Except ε α

namespace Traced

variable {ω ε ε' α β : Type}

def andThen (x : Traced ω ε α) (f : α → Traced ω ε β) : Traced ω ε β :=
  match x.2 with
  | .ok a => (x.1 ++ (f a).1, (f a).2)
  | .error e => (x.1, .error e)

instance : Monad (Traced ω ε) where
  pure a := ([], .ok a)
  bind := andThen

/-- One event. -/
def tell (w : ω) : Traced ω ε Unit := ([w], .ok ())

def stop (e : ε) : Traced ω ε α := ([], .error e)

/-- A program without events. -/
def call (f : ε' → ε) (x : Except ε' α) : Traced ω ε α := ([], x.mapError f)

def Obeys (good : ω → Prop) (allowed : ε → Prop) (x : Traced ω ε α) : Prop :=
  (∀ w ∈ x.1, good w) ∧ ∀ e, x.2 = .error e → allowed e

variable {good : ω → Prop} {allowed : ε → Prop}

theorem obeys_bind {x : Traced ω ε α} {f : α → Traced ω ε β} :
    (x >>= f).Obeys good allowed ↔ x.Obeys good allowed ∧ ∀ a, x.2 = .ok a → (f a).Obeys good allowed := by
  change (x.andThen f).Obeys good allowed ↔ _
  obtain ⟨l, r⟩ := x
  cases r with
  | error e => simp [andThen, Obeys]
  | ok a =>
    simp only [andThen, Obeys, List.mem_append, reduceCtorEq, false_implies, implies_true,
      and_true, Except.ok.injEq, forall_eq']
    constructor
    · intro ⟨h1, h2⟩
      exact ⟨fun w hw => h1 w (Or.inl hw), fun w hw => h1 w (Or.inr hw), h2⟩
    · intro ⟨h1, h2, h3⟩
      exact ⟨fun w hw => hw.elim (h1 w) (h2 w), h3⟩

@[simp] theorem obeys_pure (a : α) : (pure a : Traced ω ε α).Obeys good allowed := by
  constructor
  · intro w hw
    cases hw
  · intro e he
    cases he

@[simp] theorem obeys_stop {e : ε} : (stop e : Traced ω ε α).Obeys good allowed ↔ allowed e := by
  simp [stop, Obeys]

theorem pure_bind (a : α) (f : α → Traced ω ε β) : (pure a >>= f) = f a := by
  change (([] : List ω) ++ (f a).1, (f a).2) = f a
  rw [List.nil_append]
  exact Prod.mk.eta

theorem bind_assoc {γ : Type} (x : Traced ω ε α) (f : α → Traced ω ε β) (g : β → Traced ω ε γ) :
    (x >>= f >>= g) = (x >>= fun a => f a >>= g) := by
  change (x.andThen f).andThen g = x.andThen fun a => (f a).andThen g
  obtain ⟨l, r⟩ := x
  cases r with
  | error e => rfl
  | ok a =>
    simp only [andThen]
    cases (f a).2 with
    | error e => rfl
    | ok b =>
      simp only [List.append_assoc]
      rfl

@[simp] theorem obeys_tell_bind {w : ω} {f : Unit → Traced ω ε β} :
    (tell w >>= f).Obeys good allowed ↔ good w ∧ (f ()).Obeys good allowed := by
  rw [obeys_bind]
  constructor
  · intro ⟨h1, h2⟩
    exact ⟨h1.1 w List.mem_cons_self, h2 () rfl⟩
  · intro ⟨h1, h2⟩
    refine ⟨⟨fun v hv => ?_, fun e he => by cases he⟩, fun _ _ => h2⟩
    rwa [List.mem_singleton.mp hv]

/-- A call that must not stop. -/
theorem obeys_call_bind {g : ε' → ε} (hg : ∀ e, ¬allowed (g e)) {x : Except ε' α}
    {f : α → Traced ω ε β} : (call g x >>= f).Obeys good allowed ↔
      ∃ a, x = .ok a ∧ (f a).Obeys good allowed := by
  rw [obeys_bind]
  cases x with
  | ok a => simp [call, Obeys, Except.mapError]
  | error e => simp [call, Obeys, Except.mapError, hg]

/-! ## Events for a machine -/

section Feed
variable {σ ε₁ : Type}

/-- A machine that takes the events one after the other, before the program returns or stops. -/
def feed (step : ω → σ → Except ε₁ σ) (f : ε → ε₁) (x : Traced ω ε α) (s : σ) : Except ε₁ (α × σ) := do
  let s ← x.1.foldlM (fun s w => step w s) s
  match x.2 with
  | .ok a => .ok (a, s)
  | .error e => .error (f e)

variable {step : ω → σ → Except ε₁ σ} {f : ε → ε₁}

theorem feed_bind (x : Traced ω ε α) (g : α → Traced ω ε β) (s : σ) :
    (x >>= g).feed step f s = x.feed step f s >>= fun r => (g r.1).feed step f r.2 := by
  change (x.andThen g).feed step f s = _
  obtain ⟨l, r⟩ := x
  unfold feed
  cases r with
  | error e =>
    simp only [andThen]
    cases l.foldlM (fun s w => step w s) s with
    | error e => rfl
    | ok s => rfl
  | ok a =>
    simp only [andThen, List.foldlM_append]
    cases l.foldlM (fun s w => step w s) s with
    | error e => rfl
    | ok s => rfl

theorem feed_tell_bind (w : ω) (g : Unit → Traced ω ε β) (s : σ) :
    (tell w >>= g).feed step f s = step w s >>= fun s => (g ()).feed step f s := by
  rw [feed_bind]
  unfold feed tell
  simp only [List.foldlM_cons, List.foldlM_nil]
  cases step w s with
  | error e => rfl
  | ok s => rfl

end Feed

end Traced

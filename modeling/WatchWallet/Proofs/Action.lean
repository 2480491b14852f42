import Mathlib.Order.Defs.Unbundled
import Mathlib.Tactic.Common
import WatchWallet.Action

/-!
Three ways to speak of an operation without its log: where it leads from any state, whether it
fails or not, what it leaves where it fails, and what it yields at one state.
-/

namespace WatchWallet.Action

variable {σ τ ε α β : Type}

@[simp] lemma run_monadLift (e : Except Error α) (s : σ) :
    run (monadLift e : Action σ α) s = ⟨e, s, []⟩ := by
  cases e <;> rfl

@[simp] lemma run_modifyGet (f : σ → α × σ) (s : σ) :
    run (modifyGet f : Action σ α) s = ⟨.ok (f s).1, (f s).2, []⟩ := rfl

instance : LawfulMonad (Action σ) := by
  refine LawfulMonad.mk' _ ?_ (fun _ _ => rfl) ?_
  · intro α x
    funext s
    change run (x >>= pure) s = run x s
    rw [run_bind]
    rcases run x s with ⟨a | a, t, es⟩
    · rfl
    · simp
  · intro α β γ x f g
    funext s
    change run (x >>= f >>= g) s = run (x >>= fun a => f a >>= g) s
    simp only [run_bind]
    rcases run x s with ⟨a | a, t, es⟩
    · rfl
    · rcases hf : run (f a) t with ⟨b | b, u, es'⟩ <;> simp [hf]

@[simp] lemma run_map (f : α → β) (x : Action σ α) (s : σ) :
    run (f <$> x) s = ⟨(run x s).result.map f, (run x s).state, (run x s).log⟩ := by
  rw [← bind_pure_comp, run_bind]
  rcases run x s with ⟨a | a, t, es⟩
  · rfl
  · simp [Except.map]

@[simp] lemma run_discard (x : Action σ α) (s : σ) :
    run (discard x) s = ⟨(run x s).result.map fun _ => (), (run x s).state, (run x s).log⟩ :=
  run_map _ x s

/-! ### Where it leads -/

/-- Every state is related to the one that the operation leaves there. -/
def Leads (R : σ → σ → Prop) (x : Action σ α) : Prop := ∀ s, R s (run x s).state

/-- Related if what held before still holds. -/
def Keeps (P : σ → Prop) (s t : σ) : Prop := P s → P t

instance (P : σ → Prop) : IsPreorder σ (Keeps P) where
  refl _ h := h
  trans _ _ _ h h' := h' ∘ h

section Leads

variable {R : σ → σ → Prop}

variable [IsPreorder σ R]

lemma leads_of_state_eq {x : Action σ α} (h : ∀ s, (run x s).state = s) : Leads R x := by
  intro s
  rw [h s]
  exact refl_of R s

lemma leads_pure (a : α) : Leads R (pure a : Action σ α) := leads_of_state_eq fun _ => rfl

lemma leads_log (level : Log.Level) (message : String) :
    Leads R (log level message : Action σ Unit) :=
  leads_of_state_eq fun _ => rfl

lemma leads_bind {x : Action σ α} {f : α → Action σ β} (hx : Leads R x)
    (hf : ∀ a, Leads R (f a)) : Leads R (x >>= f) := by
  intro s
  have h := hx s
  rw [run_bind]
  rcases hrun : run x s with ⟨a | a, t, es⟩
  · rw [hrun] at h
    exact h
  · rw [hrun] at h
    exact trans_of R h (hf a t)

/-- A loop leads where its turns lead. -/
lemma leads_forM {l : List ε} {f : ε → Action σ PUnit} (h : ∀ e ∈ l, Leads R (f e)) :
    Leads R (l.forM f) := by
  induction l with
  | nil => exact leads_pure _
  | cons e l ih =>
    exact leads_bind (h e (by simp)) fun _ => ih fun e' he' => h e' (by simp [he'])

end Leads

/-! ### Where it fails -/

/-- A failure leaves the state as it was. -/
def Atomic (x : Action σ α) : Prop := ∀ s e, (run x s).result = .error e → (run x s).state = s

lemma atomic_within {part : σ → τ} {replace : σ → τ → σ} {x : Action τ α}
    (h : ∀ s, replace s (part s) = s) (hx : Atomic x) : Atomic (within part replace x) := by
  intro s e he
  rw [run_within] at he ⊢
  simp only at he ⊢
  rw [hx (part s) e he, h]

lemma atomic_map {x : Action σ α} (hx : Atomic x) (f : α → β) : Atomic (f <$> x) := by
  intro s e he
  rw [run_map] at he ⊢
  cases h : (run x s).result with
  | error e' => exact hx s e' h
  | ok a =>
    rw [h] at he
    cases he

/-! ### What it yields -/

/-- From `s` the operation answers `a` and leaves `t`, whatever it logs. -/
def Yields (x : Action σ α) (s : σ) (a : α) (t : σ) : Prop :=
  (run x s).result = .ok a ∧ (run x s).state = t

lemma yields_lift (a : α) (s : σ) : Yields (monadLift (.ok a : Except Error α)) s a s :=
  ⟨rfl, rfl⟩

lemma yields_lift_of_eq {e : Except Error α} {a : α} (h : e = .ok a) (s : σ) :
    Yields (monadLift e) s a s := by
  rw [h]
  exact yields_lift a s

lemma Yields.ne_error {x : Action σ α} {s t : σ} {a : α} (h : Yields x s a t) (e : Error) :
    (run x s).result ≠ .error e := by
  rw [h.1]
  exact fun heq => nomatch heq

lemma yields_bind {x : Action σ α} {f : α → Action σ β} {s t u : σ} {a : α} {b : β}
    (hx : Yields x s a t) (hf : Yields (f a) t b u) : Yields (x >>= f) s b u := by
  obtain ⟨ha, rfl⟩ := hx
  rw [Yields, run_bind]
  rcases hrun : run x s with ⟨r, t, es⟩
  rw [hrun] at ha hf
  obtain rfl : r = .ok a := ha
  exact hf

/-- Steps that yield, one after the other, are all that a sequence yields by. -/
lemma yields_bind_iff {x : Action σ α} {f : α → Action σ β} {s u : σ} {b : β} :
    Yields (x >>= f) s b u ↔ ∃ a t, Yields x s a t ∧ Yields (f a) t b u := by
  constructor
  · intro h
    rw [Yields, run_bind] at h
    rcases hrun : run x s with ⟨a | a, t, es⟩
    · rw [hrun] at h
      cases h.1
    · rw [hrun] at h
      exact ⟨_, t, ⟨by rw [hrun], by rw [hrun]⟩, h⟩
  · rintro ⟨a, t, hx, hf⟩
    exact yields_bind hx hf

lemma yields_building {t u : τ} {x : Action τ Unit} (h : Yields x t () u) (s : σ) :
    Yields (building t x : Action σ τ) s u s := by
  obtain ⟨hok, rfl⟩ := h
  refine ⟨?_, rfl⟩
  rw [run_building, hok]
  rfl

/-- A loop whose turns all succeed, each on a part of the state, folds what they do to it. -/
lemma yields_forM {l : List ε} {f : ε → Action σ PUnit} {put : τ → σ} {g : τ → ε → τ}
    (h : ∀ e ∈ l, ∀ t, Yields (f e) (put t) () (put (g t e))) (t : τ) :
    Yields (l.forM f) (put t) () (put (l.foldl g t)) := by
  induction l generalizing t with
  | nil => exact ⟨rfl, rfl⟩
  | cons e l ih =>
    exact yields_bind (h e (by simp) t) (ih (fun e' he' => h e' (by simp [he'])) (g t e))

lemma yields_foldl {l : List ε} {f : ε → Action σ PUnit} {g : σ → ε → σ}
    (h : ∀ e ∈ l, ∀ s, Yields (f e) s () (g s e)) (s : σ) :
    Yields (l.forM f) s () (l.foldl g s) :=
  @yields_forM σ σ ε l f id g h s

end WatchWallet.Action

import StructuralTyping.Pattern.Graph

/-!
# Outcomes of operations on graphs

An operation on a graph ends with an answer or with an error, and leaves a graph in both cases. What
holds at its end is followed through the operation from part to part. Operations that are bounded by
a number of steps are compared by what they do within the bound: one approximates another if it ends
like it or is exhausted.
-/
namespace StructuralTyping.Build

instance decidableEqResult {ε σ α : Type} [DecidableEq ε] [DecidableEq σ] [DecidableEq α] :
    DecidableEq (EStateM.Result ε σ α)
  | .ok a s, .ok b t => decidable_of_iff (a = b ∧ s = t) (by simp)
  | .error a s, .error b t => decidable_of_iff (a = b ∧ s = t) (by simp)
  | .ok _ _, .error _ _ => isFalse (by simp)
  | .error _ _, .ok _ _ => isFalse (by simp)

variable {α β : Type} {m : Build α} {f : α → Build β} {g g' : PatternGraph}
  {ok : β → PatternGraph → Prop} {fail : PatternError → PatternGraph → Prop}

theorem get_bind (f : PatternGraph → Build β) : (get >>= f) g = f g g := rfl

/-- What holds of the answer or of the error of an operation, and of the graph it leaves. -/
def Outcome (m : Build α) (g : PatternGraph) (ok : α → PatternGraph → Prop)
    (fail : PatternError → PatternGraph → Prop) : Prop :=
  match m g with
  | .ok a g' => ok a g'
  | .error e g' => fail e g'

theorem Outcome.of_ok {ok : α → PatternGraph → Prop} {a : α} (h : Outcome m g ok fail)
    (hm : m g = .ok a g') : ok a g' := by
  simpa only [Outcome, hm] using h

theorem Outcome.of_error {ok : α → PatternGraph → Prop} {e : PatternError}
    (h : Outcome m g ok fail) (hm : m g = .error e g') : fail e g' := by
  simpa only [Outcome, hm] using h

theorem outcome_true (m : Build α) (g : PatternGraph) :
    Outcome m g (fun _ _ => True) fun _ _ => True := by
  unfold Outcome
  cases m g <;> trivial

theorem outcome_of_eq_ok {ok : α → PatternGraph → Prop} {a : α} (hm : m g = .ok a g') :
    Outcome m g ok fail ↔ ok a g' := by
  rw [Outcome, hm]

theorem Outcome.imp {ok ok' : α → PatternGraph → Prop} {fail' : PatternError → PatternGraph → Prop}
    (h : Outcome m g ok fail) (hok : ∀ a g', ok a g' → ok' a g')
    (hfail : ∀ e g', fail e g' → fail' e g') : Outcome m g ok' fail' := by
  unfold Outcome at h ⊢
  cases hm : m g with
  | ok a g' =>
    rw [hm] at h
    exact hok a g' h
  | error e g' =>
    rw [hm] at h
    exact hfail e g' h

theorem Outcome.and {ok ok' : α → PatternGraph → Prop} {fail' : PatternError → PatternGraph → Prop}
    (h : Outcome m g ok fail) (h' : Outcome m g ok' fail') :
    Outcome m g (fun a g' => ok a g' ∧ ok' a g') fun e g' => fail e g' ∧ fail' e g' := by
  unfold Outcome at h h' ⊢
  cases hm : m g <;> simp_all

@[simp] theorem outcome_pure {ok : α → PatternGraph → Prop} (a : α) :
    Outcome (pure a) g ok fail ↔ ok a g := Iff.rfl

@[simp] theorem outcome_bind :
    Outcome (m >>= f) g ok fail ↔ Outcome m g (fun a g' => Outcome (f a) g' ok fail) fail := by
  simp only [Outcome, bind, EStateM.bind]
  cases m g with
  | ok a g' => rfl
  | error e g' => rfl

@[simp] theorem outcome_map {h : α → β} :
    Outcome (h <$> m) g ok fail ↔ Outcome m g (fun a g' => ok (h a) g') fail := by
  simp only [Outcome, Functor.map, EStateM.map]
  cases m g with
  | ok a g' => rfl
  | error e g' => rfl

@[simp] theorem outcome_get {ok : PatternGraph → PatternGraph → Prop} :
    Outcome get g ok fail ↔ ok g g := Iff.rfl

@[simp] theorem outcome_modify {ok : PUnit → PatternGraph → Prop}
    (h : PatternGraph → PatternGraph) : Outcome (modify h) g ok fail ↔ ok ⟨⟩ (h g) := Iff.rfl

@[simp] theorem outcome_throw {ok : α → PatternGraph → Prop} (e : PatternError) :
    Outcome (throw e) g ok fail ↔ fail e g := Iff.rfl

@[simp] theorem outcome_addNode {ok : Nat → PatternGraph → Prop} (kind : PatternKind)
    (edges : NameMap Nat) : Outcome (addNode kind edges) g ok fail ↔
      ok (g.pushNode kind edges).1 (g.pushNode kind edges).2 := Iff.rfl

@[simp] theorem outcome_setEdge {ok : Unit → PatternGraph → Prop} (id : Nat) (label : String)
    (target : Nat) : Outcome (setEdge id label target) g ok fail ↔
      ok () (g.withEdge id label target) := Iff.rfl

/-- What every step of a loop leaves for the rest holds before the loop if it does for the whole
list, and after it for the empty rest. -/
theorem outcome_forM {body : α → Build PUnit} {I : List α → PatternGraph → Prop} {todo : List α}
    {ok : PUnit → PatternGraph → Prop}
    (hstep : ∀ a rest g, I (a :: rest) g → Outcome (body a) g (fun _ => I rest) fail)
    (h : I todo g) (hend : ∀ g', I [] g' → ok ⟨⟩ g') : Outcome (todo.forM body) g ok fail := by
  induction todo generalizing g with
  | nil => exact hend g h
  | cons a rest ih =>
    change Outcome (body a >>= fun _ => rest.forM body) g _ _
    rw [outcome_bind]
    exact (hstep a rest g h).imp (fun _ _ h => ih h) fun _ _ h => h

/-- The operations end alike, unless the first is exhausted. -/
def Approximates (m n : Build α) : Prop := ∀ g, m g = n g ∨ ∃ g', m g = .error .exhausted g'

theorem Approximates.refl (m : Build α) : Approximates m m := fun _ => .inl rfl

theorem Approximates.trans {n k : Build α} (h : Approximates m n) (h' : Approximates n k) :
    Approximates m k := by
  intro g
  rcases h g with h | h
  · rw [h]
    exact h' g
  · exact .inr h

theorem Approximates.bind {n : Build α} {f' : α → Build β} (h : Approximates m n)
    (hf : ∀ a, Approximates (f a) (f' a)) : Approximates (m >>= f) (n >>= f') := by
  intro g
  simp only [Bind.bind, EStateM.bind]
  rcases h g with h | ⟨g', h⟩
  · rw [h]
    cases n g with
    | ok a g' => exact hf a g'
    | error e g' => exact .inl rfl
  · rw [h]
    exact .inr ⟨g', rfl⟩

theorem Approximates.forM {body body' : α → Build PUnit}
    (h : ∀ a, Approximates (body a) (body' a)) (todo : List α) :
    Approximates (todo.forM body) (todo.forM body') := by
  induction todo with
  | nil => exact .refl _
  | cons a rest ih =>
    change Approximates (body a >>= fun _ => rest.forM body) (body' a >>= fun _ => rest.forM body')
    exact (h a).bind fun _ => ih

theorem Approximates.eq {n : Build α} (h : Approximates m n)
    (hm : ∀ g', m g ≠ .error .exhausted g') : m g = n g := by
  rcases h g with h | ⟨g', h⟩
  · exact h
  · exact absurd h (hm g')

/-- A recursion on its bound that each step approximates is approximated by all that follow. -/
theorem approximates_of_le {m : Nat → Build α} (h : ∀ n, Approximates (m n) (m (n + 1)))
    {n k : Nat} (hle : n ≤ k) : Approximates (m n) (m k) := by
  induction hle with
  | refl => exact .refl _
  | step _ ih => exact ih.trans (h _)

end StructuralTyping.Build

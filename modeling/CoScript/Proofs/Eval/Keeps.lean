import CoScript.Eval.Script

/-!
# Computations that keep an invariant

Results:
* `Effect.Keeps`: a computation keeps an invariant of the world, and its results satisfy `Q`.
* `Effect.Keeps.bind`: such computations one after the other.
-/

namespace CoScript.Effect

variable {α β : Type} {I : World → Prop}

/-- A computation keeps the invariant `I` of the world, also when it ends with a fault, and its
    results satisfy `Q`. -/
def Keeps (I : World → Prop) (x : Effect α) (Q : α → Prop) : Prop :=
  ∀ w, I w → I (x.run w).2 ∧ ∀ a, (x.run w).1 = .ok a → Q a

namespace Keeps

variable {x : Effect α} {f : α → Effect β} {P : α → Prop} {Q : β → Prop}

theorem mono {P' : α → Prop} (h : x.Keeps I P) (hP : ∀ a, P a → P' a) : x.Keeps I P' :=
  fun w hw => ⟨(h w hw).1, fun a ha => hP a ((h w hw).2 a ha)⟩

/-- Nothing has to be kept. -/
theorem trivially : x.Keeps (fun _ => True) fun _ => True :=
  fun _ _ => ⟨trivial, fun _ _ => trivial⟩

theorem pure {a : α} (h : P a) : (Pure.pure a : Effect α).Keeps I P := by
  refine fun w hw => ⟨hw, ?_⟩
  rintro _ ⟨⟩
  exact h

theorem bind (h : x.Keeps I P) (hf : ∀ a, P a → (f a).Keeps I Q) : (x >>= f).Keeps I Q := by
  intro w hw
  obtain ⟨hx, hP⟩ := h w hw
  rw [Effect.run_bind]
  generalize x.run w = out at hx hP
  obtain ⟨r, w'⟩ := out
  cases r with
  | ok a => exact hf a (hP a rfl) w' hx
  | error e => exact ⟨hx, by simp⟩

theorem throw {e : Halt} : (MonadExcept.throw e : Effect α).Keeps I P :=
  fun w hw => ⟨hw, by rintro _ ⟨⟩⟩

theorem fault {cause : FaultCause} {pos : Option Position} :
    (fault cause pos : Effect α).Keeps I P :=
  throw

theorem abort {cause : FaultCause} : (abort cause : Effect α).Keeps I P :=
  throw

theorem ofExcept {e : Except Halt α} (h : ∀ a, e = .ok a → P a) :
    (liftM e : Effect α).Keeps I P := by
  refine fun w hw => ⟨hw, ?_⟩
  rintro a ha
  exact h a ha

theorem ofOption {o : Option α} (h : ∀ a, o = some a → P a) : (ofOption o).Keeps I P := by
  cases o with
  | none => exact abort
  | some a => exact pure (h a rfl)

theorem get : (MonadState.get : Effect World).Keeps I I :=
  fun w hw => ⟨hw, by rintro _ ⟨⟩; exact hw⟩

theorem modify {g : World → World} (h : ∀ w, I w → I (g w)) :
    (modify g : Effect Unit).Keeps I fun _ => True :=
  fun w hw => ⟨h w hw, fun _ _ => trivial⟩

theorem modifyGet {g : World → α × World} (h : ∀ w, I w → I (g w).2 ∧ P (g w).1) :
    (modifyGet g : Effect α).Keeps I P :=
  fun w hw => ⟨(h w hw).1, by rintro _ ⟨⟩; exact (h w hw).2⟩

theorem forIn {γ : Type} {items : List γ} {init : α} {step : γ → α → Effect (ForInStep α)}
    (hinit : P init)
    (h : ∀ c a, c ∈ items → P a → (step c a).Keeps I fun r => P r.value) :
    (ForIn.forIn items init step : Effect α).Keeps I P := by
  induction items generalizing init with
  | nil => exact pure hinit
  | cons c items ih =>
    rw [List.forIn_cons]
    refine bind (h c init (by simp) hinit) fun r hr => ?_
    cases r with
    | done a => exact pure hr
    | yield a => exact ih hr fun d a hd ha => h d a (List.mem_cons_of_mem _ hd) ha

end Keeps

end CoScript.Effect

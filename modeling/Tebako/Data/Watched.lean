import Tebako.Data.Machine

namespace Tebako.Data.Machine

/-! Systems of which only some operations are watched.

A model answers the watched operations one after the other; whatever else the
system does in between leaves the model where it is. -/

variable {σ : Type u} {τ : Type v} {ι : Type w} {κ : Type x} {ο : Type y} {ο' : Type z}

/-- The answers to the watched operations. -/
def seen (watched : ι → Option κ) : List ι → List ο → List ο
  | op :: ops, answer :: rest =>
      if (watched op).isSome then answer :: seen watched ops rest else seen watched ops rest
  | _, _ => []

theorem allows_of_forall {step : Machine σ ι ο} {allowed : σ → ι → Prop} {ops : List ι} {state : σ}
    (always : ∀ op ∈ ops, ∀ state, allowed state op) : Allows step allowed ops state := by
  induction ops generalizing state with
  | nil => trivial
  | cons op rest ih => exact ⟨always op (by simp) state, ih fun other member => always other (by simp [member])⟩

/-- The answer to a watched operation, by how many were watched before. -/
theorem seen_getElem? {watched : ι → Option κ} {ops : List ι} {results : List ο} {place : Nat} {op : ι} {call : κ}
    {answer : ο} (there : ops[place]? = some op) (watching : watched op = some call)
    (answered : results[place]? = some answer) :
    (seen watched ops results)[((ops.take place).filterMap watched).length]? = some answer := by
  induction ops generalizing results place with
  | nil => cases there
  | cons first rest ih =>
      cases results with
      | nil => cases answered
      | cons result results =>
          cases place with
          | zero =>
              cases there
              cases answered
              simp only [List.take_zero, List.filterMap_nil, List.length_nil, seen, watching, Option.isSome_some,
                ↓reduceIte, List.getElem?_cons_zero]
          | succ place =>
              have later := ih there answered
              cases here : watched first with
              | none =>
                  simp only [List.take_succ_cons, List.filterMap_cons_none here, seen, here, Option.isSome_none,
                    Bool.false_eq_true, ↓reduceIte, later]
              | some other =>
                  simp only [List.take_succ_cons, List.filterMap_cons_some here, List.length_cons, seen, here,
                    Option.isSome_some, ↓reduceIte, List.getElem?_cons_succ, later]

/-- The model answers what is watched, as long as it is asked what it fits. -/
structure Watches (step : Machine σ ι ο) (model : Machine τ κ ο') (watched : ι → Option κ) (render : ο' → ο)
    (allowed : σ → ι → Prop) (fits : τ → κ → Prop) (related : σ → τ → Prop) : Prop where
  answer : ∀ {state image op call}, related state image → allowed state op → watched op = some call → fits image call →
    (step op state).1 = render (model call image).1
  next : ∀ {state image op call}, related state image → allowed state op → watched op = some call → fits image call →
    related (step op state).2 (model call image).2
  idle : ∀ {state image op}, related state image → allowed state op → watched op = none →
    related (step op state).2 image

variable {step : Machine σ ι ο} {model : Machine τ κ ο'} {watched : ι → Option κ} {render : ο' → ο}
variable {allowed : σ → ι → Prop} {fits : τ → κ → Prop} {related : σ → τ → Prop} {state : σ} {image : τ}

theorem Watches.seen_eq (watches : Watches step model watched render allowed fits related) {ops : List ι}
    (initial : related state image) (permitted : Allows step allowed ops state)
    (fitting : Allows model fits (ops.filterMap watched) image) :
    seen watched ops (answers step ops state) = (answers model (ops.filterMap watched) image).map render := by
  induction ops generalizing state image with
  | nil => rfl
  | cons op rest ih =>
      obtain ⟨here, later⟩ := permitted
      cases watching : watched op with
      | none =>
          rw [List.filterMap_cons_none watching] at fitting ⊢
          simp only [answers, seen, watching, Option.isSome_none, Bool.false_eq_true, ↓reduceIte]
          exact ih (watches.idle initial here watching) later fitting
      | some call =>
          rw [List.filterMap_cons_some watching] at fitting ⊢
          obtain ⟨fit, onward⟩ := fitting
          simp only [answers, seen, watching, Option.isSome_some, ↓reduceIte, List.map_cons]
          rw [watches.answer initial here watching fit, ih (watches.next initial here watching fit) later onward]

theorem Watches.after_related (watches : Watches step model watched render allowed fits related) {ops : List ι}
    (initial : related state image) (permitted : Allows step allowed ops state)
    (fitting : Allows model fits (ops.filterMap watched) image) :
    related (after step ops state) (after model (ops.filterMap watched) image) := by
  induction ops generalizing state image with
  | nil => exact initial
  | cons op rest ih =>
      obtain ⟨here, later⟩ := permitted
      cases watching : watched op with
      | none =>
          rw [List.filterMap_cons_none watching] at fitting ⊢
          exact ih (watches.idle initial here watching) later fitting
      | some call =>
          rw [List.filterMap_cons_some watching] at fitting ⊢
          obtain ⟨fit, onward⟩ := fitting
          exact ih (watches.next initial here watching fit) later onward

end Tebako.Data.Machine

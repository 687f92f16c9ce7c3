import OffsetCommit.Proofs.Engine.Unobserved
import OffsetCommit.Proofs.Session.Congruence

/-!
# Sessions that differ in what observes them

Two sessions are alike when they differ in the observer, in what was reported to it, and in which of
some receipts they hold. The observer has no bearing on what shows of an engine, so what is done to
both is answered alike and leaves them alike.

* `alike_iff`: to be alike is to be `Related` by `Engine.SameUnobserved`, so the congruence lemmas
  apply.
* `isBlind_perform`: no step looks at the observer, nor at the receipts that one of them may not
  hold.
* `Alike.settle`: settling alike sessions notes the same.
-/

namespace OffsetCommit

/-! ### Pipelines -/

namespace Pipeline

/-- Whether two pipelines differ at most in the observer and in what the commit path has reported. -/
structure Alike (pl pl' : Pipeline) : Prop where
  /-- The coordinators are the same. -/
  coordinator : pl.coordinator = pl'.coordinator
  /-- The engines are the same without their observers. -/
  engine : pl.engine.unobserved = pl'.engine.unobserved
  /-- The coordinators have reported the same. -/
  log : pl.log = pl'.log

/-- A pipeline is alike to itself. -/
theorem Alike.refl (pl : Pipeline) : pl.Alike pl := ⟨rfl, rfl, rfl⟩

/-- The relation `Alike` between pipelines is symmetric. -/
theorem Alike.symm {pl pl' : Pipeline} (h : pl.Alike pl') : pl'.Alike pl :=
  ⟨h.coordinator.symm, h.engine.symm, h.log.symm⟩

/-- The relation `Alike` between pipelines is transitive. -/
theorem Alike.trans {pl pl' pl'' : Pipeline} (h : pl.Alike pl') (h' : pl'.Alike pl'') :
    pl.Alike pl'' :=
  ⟨h.coordinator.trans h'.coordinator, h.engine.trans h'.engine, h.log.trans h'.log⟩

end Pipeline

/-! ### Sessions -/

/-- Whether a call lets go of a receipt. -/
def Call.isDrop : Call → Bool
  | .dropReceipt _ => true
  | _ => false

/-- Whether a step lets go of a receipt. -/
def Step.hasDrop : Step → Bool
  | .call c => c.isDrop
  | .batch calls => calls.any Call.isDrop
  | _ => false

/-- A call that lets go of no receipt names none. -/
theorem Call.receipt?_of_isDrop {c : Call} (h : c.isDrop = false) : c.receipt? = none := by
  cases c with
  | dropReceipt r => cases h
  | _ => rfl

/-- A step that lets go of no receipt names only the one that it waits for. -/
theorem Step.eq_wait_of_mem_receipts {step : Step} (h : step.hasDrop = false) {r : Nat}
    (hr : r ∈ step.receipts) : step = .wait r := by
  cases step with
  | call c =>
      rw [receipts, Call.receipt?_of_isDrop h] at hr
      cases hr
  | batch calls =>
      obtain ⟨c, hc, hname⟩ := List.mem_filterMap.mp hr
      have hdrop : c.isDrop = false := by
        simpa using List.any_eq_false.mp h c hc
      rw [Call.receipt?_of_isDrop hdrop] at hname
      cases hname
  | wait r' => rw [List.mem_singleton.mp hr]
  | _ => cases hr

namespace Session

/-- Whether two sessions differ at most in the observer, in what the commit path has reported, and in
which receipts of a list they hold. -/
structure Alike (gone : List Nat) (s s' : Session) : Prop where
  /-- The pipelines are the same without the observers. -/
  pipeline : s.pipeline.Alike s'.pipeline
  /-- They hold on to the commit path in the same way. -/
  attachment : s.attachment = s'.attachment
  /-- Both have let go of the coordinator, or neither has. -/
  isDropped : s.isDropped = s'.isDropped
  /-- They hold the same receipts, those of the list aside. -/
  held : s.held.filter (· ∉ gone) = s'.held.filter (· ∉ gone)
  /-- The same shutdowns were begun and not answered. -/
  shutdowns : s.shutdowns = s'.shutdowns

variable {gone : List Nat}

/-- A session is alike to itself. -/
theorem Alike.refl (s : Session) : s.Alike gone s :=
  ⟨.refl _, rfl, rfl, rfl, rfl⟩

/-- The relation `Alike gone` between sessions is symmetric. -/
theorem Alike.symm {s s' : Session} (h : s.Alike gone s') : s'.Alike gone s :=
  ⟨h.pipeline.symm, h.attachment.symm, h.isDropped.symm, h.held.symm, h.shutdowns.symm⟩

/-- The relation `Alike gone` between sessions is transitive. -/
theorem Alike.trans {s s' s'' : Session} (h : s.Alike gone s') (h' : s'.Alike gone s'') :
    s.Alike gone s'' :=
  ⟨h.pipeline.trans h'.pipeline, h.attachment.trans h'.attachment, h.isDropped.trans h'.isDropped,
    h.held.trans h'.held, h.shutdowns.trans h'.shutdowns⟩

/-- Alike sessions have the same engines up to the observer. -/
theorem Alike.engine {s s' : Session} (h : s.Alike gone s') :
    s.engine.unobserved = s'.engine.unobserved :=
  h.pipeline.engine

/-- A query that `Overlooks` the observer has the same answer in alike sessions. -/
theorem Alike.query {s s' : Session} (h : s.Alike gone s') {α : Type} {query : Engine → α}
    (hquery : Engine.Overlooks query) : query s.engine = query s'.engine :=
  hquery.alike h.engine

/-- Letting go of a receipt of `gone` leaves a session alike. -/
theorem alike_erase (s : Session) {r : Nat} (hr : r ∈ gone) :
    Alike gone { s with held := s.held.erase r } s := by
  have hrefl : s.Alike gone s := .refl s
  refine { hrefl with held := ?_ }
  show (s.held.erase r).filter (· ∉ gone) = s.held.filter (· ∉ gone)
  rw [← Array.erase_filter, Array.erase_of_not_mem]
  simp [hr]

/-- Sessions are alike when they are `Related` by engines that differ in the observer alone. -/
theorem alike_iff {s s' : Session} :
    s.Alike gone s' ↔ s.Related Engine.SameUnobserved True gone s' := by
  constructor
  · intro h
    exact ⟨⟨h.pipeline.coordinator, h.pipeline.engine, fun _ => h.pipeline.log⟩, h.attachment,
      h.isDropped, h.held, h.shutdowns⟩
  · intro h
    exact ⟨⟨h.pipeline.coordinator, h.pipeline.engine, h.pipeline.log trivial⟩, h.attachment,
      h.isDropped, h.held, h.shutdowns⟩

/-- Whether `g` answers alike sessions alike and leaves them alike. -/
def IsBlind {α : Type} (gone : List Nat) (g : Session → α × Session) : Prop :=
  ∀ s s', s.Alike gone s' → (g s).1 = (g s').1 ∧ (g s).2.Alike gone (g s').2

/-- What is congruent for `SameUnobserved` is blind. -/
theorem IsCongruent.isBlind {α : Type} {g : Session → α × Session}
    (h : IsCongruent Engine.SameUnobserved True gone g) : IsBlind gone g := by
  intro s s' halike
  obtain ⟨hanswer, hrelated⟩ := h s s' (alike_iff.mp halike)
  exact ⟨hanswer, alike_iff.mpr hrelated⟩

/-- No call looks at the observer or at receipts, but for those that let go of one. -/
theorem isBlind_enact {c : Call} (hc : c.isDrop = false) : IsBlind gone fun s => s.enact c := by
  refine (isCongruent_enact Engine.isCongruence_sameUnobserved fun r hr => ?_).isBlind
  rw [Call.receipt?_of_isDrop hc] at hr
  cases hr

/-- No step looks at the observer, nor at the receipts of `gone` if it lets go of none and waits for
none of them. -/
theorem isBlind_perform {step : Step} (hdrop : step.hasDrop = false)
    (hwait : ∀ r, step = .wait r → r ∉ gone) : IsBlind gone fun s => s.perform step :=
  (isCongruent_perform Engine.isCongruence_sameUnobserved fun r hr =>
    hwait r (step.eq_wait_of_mem_receipts hdrop hr)).isBlind

/-- Settling alike sessions notes the same, receipts of `gone` aside, and leaves them alike. -/
theorem Alike.settle {s s' : Session} (h : s.Alike gone s') :
    s.settle.1.filter (fun ended => ended.1 ∉ gone) =
        s'.settle.1.filter (fun ended => ended.1 ∉ gone) ∧
      s.settle.2.Alike gone s'.settle.2 := by
  obtain ⟨hdone, hrelated⟩ := (alike_iff.mp h).settle Engine.isCongruence_sameUnobserved
  exact ⟨hdone, alike_iff.mpr hrelated⟩

end Session

end OffsetCommit

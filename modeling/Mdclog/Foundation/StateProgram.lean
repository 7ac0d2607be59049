import Mathlib.Data.Option.Basic
import Mathlib.Logic.Relation

/-! Programs over a state that may have no result, and the rules for what holds
of every result they do have. -/
namespace Foundation.StateProgram

variable {σ α β : Type}

@[simp] theorem run_lift_some (a : α) (s : σ) :
    (liftM (some a) : StateT σ Option α).run s = some (a, s) := rfl

theorem of_bind_pure {p : StateT σ Option α} {f : α → β} {s s' : σ} {b : β}
    (h : (p >>= fun a => pure (f a)).run s = some (b, s')) :
    ∃ a, p.run s = some (a, s') ∧ b = f a := by
  rw [StateT.run_bind, Option.bind_eq_bind, Option.bind_eq_some_iff] at h
  obtain ⟨⟨a, s₁⟩, hp, hpure⟩ := h
  cases hpure
  exact ⟨a, hp, rfl⟩

/-- Whatever `p` returns from `s`, it returns with `post`. -/
def Wlp (post : α → σ → Prop) (p : StateT σ Option α) (s : σ) : Prop :=
  ∀ a s', p.run s = some (a, s') → post a s'

namespace Wlp
variable {post : α → σ → Prop} {p : StateT σ Option α} {s : σ}

theorem mono {post' : α → σ → Prop} (h : Wlp post p s) (hpost : ∀ a s', post a s' → post' a s') :
    Wlp post' p s := fun a s' hrun => hpost a s' (h a s' hrun)

theorem pure {a : α} (h : post a s) : Wlp post (pure a) s := by
  intro a' s' hrun
  cases hrun
  exact h

theorem bind {post : β → σ → Prop} {f : α → StateT σ Option β}
    (h : Wlp (fun a s' => Wlp post (f a) s') p s) : Wlp post (p >>= f) s := by
  intro b s'' hrun
  rw [StateT.run_bind, Option.bind_eq_bind, Option.bind_eq_some_iff] at hrun
  obtain ⟨⟨a, s'⟩, hp, hf⟩ := hrun
  exact h a s' hp b s'' hf

theorem get {post : σ → σ → Prop} (h : post s s) : Wlp post MonadState.get s := by
  intro a s' hrun
  cases hrun
  exact h

theorem modify {post : PUnit → σ → Prop} {f : σ → σ} (h : post ⟨⟩ (f s)) :
    Wlp post (modify f) s := by
  intro a s' hrun
  cases hrun
  exact h

theorem lift {value : Option α} (h : ∀ a, value = some a → post a s) :
    Wlp post (liftM value) s := by
  intro a s' hrun
  cases value with
  | none => cases hrun
  | some value =>
    cases hrun
    exact h _ rfl

theorem failure : Wlp post failure s := by
  intro a s' hrun
  cases hrun

theorem ite {c : Prop} [Decidable c] {q : StateT σ Option α} (hpos : c → Wlp post p s)
    (hneg : ¬c → Wlp post q s) : Wlp post (if c then p else q) s := by
  by_cases hc : c
  · rw [if_pos hc]
    exact hpos hc
  · rw [if_neg hc]
    exact hneg hc

end Wlp

/-- `p` returns from `s`, and what it returns it returns with `post`. -/
def Wp (post : α → σ → Prop) (p : StateT σ Option α) (s : σ) : Prop :=
  ∃ a s', p.run s = some (a, s') ∧ post a s'

namespace Wp
variable {post : α → σ → Prop} {p : StateT σ Option α} {s : σ}

theorem mono {post' : α → σ → Prop} (h : Wp post p s) (hpost : ∀ a s', post a s' → post' a s') :
    Wp post' p s := by
  obtain ⟨a, s', hrun, ha⟩ := h
  exact ⟨a, s', hrun, hpost a s' ha⟩

theorem pure {a : α} (h : post a s) : Wp post (pure a) s := ⟨a, s, rfl, h⟩

theorem bind {post : β → σ → Prop} {f : α → StateT σ Option β}
    (h : Wp (fun a s' => Wp post (f a) s') p s) : Wp post (p >>= f) s := by
  obtain ⟨a, s', hp, b, s'', hf, hb⟩ := h
  refine ⟨b, s'', ?_, hb⟩
  rw [StateT.run_bind, hp]
  exact hf

theorem get {post : σ → σ → Prop} (h : post s s) : Wp post MonadState.get s := ⟨s, s, rfl, h⟩

theorem modify {post : PUnit → σ → Prop} {f : σ → σ} (h : post ⟨⟩ (f s)) :
    Wp post (modify f) s := ⟨⟨⟩, f s, rfl, h⟩

theorem lift {a : α} (h : post a s) : Wp post (liftM (some a)) s := ⟨a, s, rfl, h⟩

end Wp

theorem Wp.wlp {post : α → σ → Prop} {p : StateT σ Option α} {s : σ} (h : Wp post p s) :
    Wlp post p s := by
  intro a s' hrun
  obtain ⟨b, s₁, hrun₁, hpost⟩ := h
  cases hrun₁.symm.trans hrun
  exact hpost

theorem Wp.and_wlp {post post' : α → σ → Prop} {p : StateT σ Option α} {s : σ} (h : Wp post p s)
    (h' : Wlp post' p s) : Wp (fun a s' => post a s' ∧ post' a s') p s := by
  obtain ⟨a, s', hrun, hpost⟩ := h
  exact ⟨a, s', hrun, hpost, h' a s' hrun⟩

/-- `p` has no result from `s` when there is no `outcome`, and else one with `post`. -/
def Meets (post : α → β → σ → Prop) (p : StateT σ Option α) (s : σ) (outcome : Option β) : Prop :=
  match outcome with
  | none => p.run s = none
  | some b => Wp (fun a s' => post a b s') p s

namespace Meets
variable {γ : Type} {post : α → β → σ → Prop} {p : StateT σ Option α} {s : σ}

theorem of_wp {b : β} (h : Wp (fun a s' => post a b s') p s) : Meets post p s (some b) := h

theorem bind_wp {post : γ → β → σ → Prop} {f : α → StateT σ Option γ} {outcome : Option β}
    (h : Wp (fun a s' => Meets post (f a) s' outcome) p s) : Meets post (p >>= f) s outcome := by
  obtain ⟨a, s', hp, hf⟩ := h
  have hrun : (p >>= f).run s = (f a).run s' := by
    rw [StateT.run_bind, hp]
    rfl
  cases outcome with
  | none => exact hrun.trans hf
  | some b =>
    obtain ⟨c, s'', hc, hpost⟩ := hf
    exact ⟨c, s'', hrun.trans hc, hpost⟩

theorem bind_none {post : γ → β → σ → Prop} {f : α → StateT σ Option γ} (h : p.run s = none) :
    Meets post (p >>= f) s none := by
  change (p >>= f).run s = none
  rw [StateT.run_bind, h]
  rfl

theorem of_run {outcome : Option β} (h : Meets post p s outcome) {a : α} {s' : σ}
    (hrun : p.run s = some (a, s')) : ∃ b, outcome = some b ∧ post a b s' := by
  cases outcome with
  | none => cases (show p.run s = none from h).symm.trans hrun
  | some b => exact ⟨b, rfl, Wp.wlp h a s' hrun⟩

end Meets

/-- `p` keeps `inv`, whatever it returns. -/
def Keeps (inv : σ → Prop) (p : StateT σ Option α) : Prop :=
  ∀ s, inv s → Wlp (fun _ s' => inv s') p s

namespace Keeps
variable {inv : σ → Prop} {p : StateT σ Option α}

theorem pure (a : α) : Keeps inv (pure a) := fun _ hs => Wlp.pure hs

theorem bind {f : α → StateT σ Option β} (hp : Keeps inv p) (hf : ∀ a, Keeps inv (f a)) :
    Keeps inv (p >>= f) := fun s hs => Wlp.bind ((hp s hs).mono fun a s' hs' => hf a s' hs')

theorem get : Keeps inv MonadState.get := fun _ hs => Wlp.get hs

theorem modify {f : σ → σ} (h : ∀ s, inv s → inv (f s)) : Keeps inv (modify f) :=
  fun s hs => Wlp.modify (h s hs)

theorem lift (value : Option α) : Keeps inv (liftM value) := fun _ hs => Wlp.lift fun _ _ => hs

theorem failure : Keeps inv (failure : StateT σ Option α) := fun _ _ => Wlp.failure

theorem ite {c : Prop} [Decidable c] {q : StateT σ Option α} (hp : c → Keeps inv p)
    (hq : ¬c → Keeps inv q) : Keeps inv (if c then p else q) :=
  fun s hs => Wlp.ite (fun hc => hp hc s hs) fun hc => hq hc s hs

end Keeps

end Foundation.StateProgram

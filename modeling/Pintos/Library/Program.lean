import Mathlib.Logic.Basic
import Mathlib.Order.Defs.PartialOrder
import Mathlib.Control.Basic

/-!
# Programs that make requests, and how to reason about them under interference

A program over a signature is a tree: it has returned, or it makes a request and goes on with the answer. The same program
can be handled in any monad (`Prog.handle`), which is how it runs alone, and it can be stepped one request at a time, which
is how it runs beside other threads.

`Prog.Safe` is the rely-guarantee rule for the second use. A program is safe in a world when every request it makes is
allowed there and keeps the guarantee, whatever changes within the rely come between its requests, and what it returns meets
the postcondition. It stays safe under every change within the rely, so the threads of a pool can be looked at one by one.
-/

namespace Program

/-- A signature: the requests, and the type of the answer to each. -/
structure Signature where
  Op : Type
  Res : Op → Type

/-- A program: it has returned, or makes a request and goes on with the answer. -/
inductive Prog (S : Signature) (α : Type) : Type where
  | ret (a : α) : Prog S α
  | call (o : S.Op) (k : S.Res o → Prog S α) : Prog S α

namespace Prog

variable {S : Signature} {α β γ : Type}

/-- One program after the other. -/
def bind : Prog S α → (α → Prog S β) → Prog S β
  | .ret a, f => f a
  | .call o k, f => .call o (fun r => (k r).bind f)

instance : Monad (Prog S) where
  pure := .ret
  bind := .bind

variable (o : S.Op) (a : α) (p : Prog S α) (f : α → Prog S β)

/-- The program that makes one request and returns the answer. -/
def op : Prog S (S.Res o) := .call o .ret

@[simp] theorem ret_bind : (ret a >>= f) = f a := rfl

@[simp] theorem call_bind (k : S.Res o → Prog S α) (f : α → Prog S β) :
    (call o k >>= f) = .call o (fun r => k r >>= f) := rfl

theorem bind_ret : (p >>= ret) = p := by
  induction p with
  | ret a => rfl
  | call o k ih => rw [call_bind]; congr 1; funext r; exact ih r

theorem bind_assoc' (g : β → Prog S γ) : (p >>= f) >>= g = p >>= fun a => f a >>= g := by
  induction p with
  | ret a => rfl
  | call o k ih => rw [call_bind, call_bind, call_bind]; congr 1; funext r; exact ih r

instance : LawfulMonad (Prog S) :=
  LawfulMonad.mk' (Prog S) (fun p => bind_ret p) (fun _ _ => rfl) (fun p f g => bind_assoc' p f g)

/-! ## Which requests a program makes -/

/-- Every request of the program meets `P`, whatever the answers are. -/
def Only (P : S.Op → Prop) : Prog S α → Prop
  | .ret _ => True
  | .call o k => P o ∧ ∀ r, (k r).Only P

variable {P : S.Op → Prop}

theorem only_ret (a : α) : (ret a : Prog S α).Only P := trivial

theorem only_call {o : S.Op} {k : S.Res o → Prog S α} : (call o k).Only P ↔ P o ∧ ∀ r, (k r).Only P := Iff.rfl

-- From here on this is taken apart by these two facts only.
attribute [irreducible] Only

theorem Only.bind {p : Prog S α} {f : α → Prog S β} (hp : p.Only P) (hf : ∀ a, (f a).Only P) : (p >>= f).Only P := by
  induction p with
  | ret a => exact hf a
  | call o k ih => exact only_call.mpr ⟨(only_call.mp hp).1, fun r => ih r ((only_call.mp hp).2 r)⟩

/-! ## Running alone -/

section Handle

variable {m : Type → Type} [Monad m]

/-- The program with every request handled in a monad. -/
def handle (h : (o : S.Op) → m (S.Res o)) : Prog S α → m α
  | .ret a => pure a
  | .call o k => h o >>= fun r => (k r).handle h

@[simp] theorem handle_ret (h : (o : S.Op) → m (S.Res o)) (a : α) : (ret a).handle h = pure a := rfl

@[simp] theorem handle_call (h : (o : S.Op) → m (S.Res o)) (o : S.Op) (k : S.Res o → Prog S α) :
    (call o k).handle h = h o >>= fun r => (k r).handle h := rfl

theorem handle_bind [LawfulMonad m] (h : (o : S.Op) → m (S.Res o)) (p : Prog S α) (f : α → Prog S β) :
    (p >>= f).handle h = p.handle h >>= fun a => (f a).handle h := by
  induction p with
  | ret a => simp
  | call o k ih => simp [ih]

end Handle

/-! ## Running on a world -/

section Run

variable {W W' ε : Type}

/-- A handler: what each request does to a world, and where it fails. -/
abbrev Handler (S : Signature) (W ε : Type) : Type := (o : S.Op) → W → Except ε (S.Res o × W)

/-- The program run on a world, up to the first request that fails. -/
def run (h : Handler S W ε) : Prog S α → W → Except ε (α × W)
  | .ret a, w => .ok (a, w)
  | .call o k, w =>
    match h o w with
    | .ok (r, w') => (k r).run h w'
    | .error e => .error e

/-- The run of a program ends as it should: it returns a value and a world that meet `Q`, or it fails in a way that `X`
excuses. -/
def Ends (h : Handler S W ε) (X : ε → Prop) (p : Prog S α) (Q : α → W → Prop) (w : W) : Prop :=
  match p.run h w with
  | .ok (a, w') => Q a w'
  | .error e => X e

variable {h : Handler S W ε} {X : ε → Prop} {Q : α → W → Prop} {w : W}

theorem ends_ret {a : α} : Ends h X (.ret a) Q w ↔ Q a w := Iff.rfl

theorem ends_call {o : S.Op} {k : S.Res o → Prog S α} :
    Ends h X (.call o k) Q w ↔
      match h o w with
      | .ok (r, w') => Ends h X (k r) Q w'
      | .error e => X e := by
  unfold Ends
  rw [run]
  cases h o w with
  | ok v => rfl
  | error e => rfl

theorem ends_bind {p : Prog S α} {f : α → Prog S β} {Q : β → W → Prop} :
    Ends h X (p >>= f) Q w ↔ Ends h X p (fun a w' => Ends h X (f a) Q w') w := by
  induction p generalizing w with
  | ret a => exact Iff.rfl
  | call o k ih =>
    rw [call_bind, ends_call, ends_call]
    cases h o w with
    | ok v => exact ih v.1
    | error e => exact Iff.rfl

theorem Ends.mono {Q' : α → W → Prop} {p : Prog S α} (hp : Ends h X p Q w) (hq : ∀ a w', Q a w' → Q' a w') : Ends h X p Q' w := by
  unfold Ends at hp ⊢
  split
  · rename_i hr
    rw [hr] at hp
    exact hq _ _ hp
  · rename_i hr
    rw [hr] at hp
    exact hp

theorem Ends.and {P : α → W → Prop} {p : Prog S α} (hP : p.Ends h X P w) (hQ : p.Ends h X Q w) :
    p.Ends h X (fun a w' => P a w' ∧ Q a w') w := by
  unfold Ends at hP hQ ⊢
  revert hP hQ
  cases p.run h w with
  | ok r => exact And.intro
  | error e => exact fun hX _ => hX

/-- Where every failure is excused, a postcondition that always holds is met. -/
theorem Ends.of_all {p : Prog S α} (hq : ∀ a w', Q a w') : Ends h (fun _ => True) p Q w := by
  unfold Ends
  split
  · exact hq _ _
  · exact trivial

/-- Fewer failures need an excuse. -/
theorem Ends.mono_excuse {X' : ε → Prop} {p : Prog S α} (hp : Ends h X p Q w) (hx : ∀ e, X e → X' e) : Ends h X' p Q w := by
  unfold Ends at hp ⊢
  split
  · rename_i hr
    rw [hr] at hp
    exact hp
  · rename_i hr
    rw [hr] at hp
    exact hx _ hp

/-- A program that ends as it should, before another one. -/
theorem Ends.bind {p : Prog S α} {f : α → Prog S β} {Q' : β → W → Prop} (hp : Ends h X p Q w)
    (hf : ∀ a w', Q a w' → Ends h X (f a) Q' w') : Ends h X (p >>= f) Q' w := ends_bind.mpr (hp.mono hf)

/-- What is said by `Ends` about a run that returns. -/
theorem Ends.ok {p : Prog S α} {a : α} {w' : W} (hp : Ends h X p Q w) (hr : p.run h w = .ok (a, w')) : Q a w' := by
  unfold Ends at hp
  rw [hr] at hp
  exact hp

/-- Without an excuse the program returns. -/
theorem Ends.returns {p : Prog S α} (hp : Ends h (fun _ => False) p Q w) : ∃ a w', p.run h w = .ok (a, w') ∧ Q a w' := by
  unfold Ends at hp
  split at hp
  · exact ⟨_, _, ‹_›, hp⟩
  · exact hp.elim

/-- A relation between worlds that every run keeps which returns. -/
def Keeps (h : Handler S W ε) (R : W → W → Prop) (p : Prog S α) : Prop := ∀ w, Ends h (fun _ => True) p (fun _ w' => R w w') w

section Keeps

variable {R : W → W → Prop}

theorem keeps_ret (hR : ∀ w, R w w) (a : α) : Keeps h R (.ret a : Prog S α) := fun w => hR w

theorem Keeps.bind (hR : ∀ a b c, R a b → R b c → R a c) {p : Prog S α} {f : α → Prog S β} (hp : Keeps h R p)
    (hf : ∀ a, Keeps h R (f a)) : Keeps h R (p >>= f) :=
  fun w => (hp w).bind (fun a w' hw => (hf a w').mono (fun _ w'' hw' => hR w w' w'' hw hw'))

/-- What the program for each request keeps, a program over these requests keeps. -/
theorem Keeps.handle {S' : Signature} (hr : ∀ w, R w w) (hR : ∀ a b c, R a b → R b c → R a c)
    {k : (o : S'.Op) → Prog S (S'.Res o)} (hk : ∀ o, Keeps h R (k o)) (p : Prog S' α) : Keeps h R (p.handle k) := by
  induction p with
  | ret a => exact keeps_ret hr a
  | call o _ ih => exact (hk o).bind hR ih

end Keeps

theorem run_call_ok {o : S.Op} {k : S.Res o → Prog S α} {w' : W} {r : S.Res o} (ho : h o w = .ok (r, w')) :
    (call o k).run h w = (k r).run h w' := by
  rw [run, ho]

theorem run_call_error {o : S.Op} {k : S.Res o → Prog S α} {e : ε} (ho : h o w = .error e) : (call o k).run h w = .error e := by
  rw [run, ho]

theorem run_bind {p : Prog S α} {f : α → Prog S β} :
    (p >>= f).run h w =
      match p.run h w with
      | .ok (a, w') => (f a).run h w'
      | .error e => .error e := by
  induction p generalizing w with
  | ret a => rfl
  | call o k ih =>
    rw [call_bind, run, run]
    cases h o w with
    | ok v => exact ih v.1
    | error e => rfl

/-- A run that comes to an end does so under every handler that answers as this one does. -/
theorem run_ok_of_handler {h' : Handler S W ε} (hle : ∀ o w r, h o w = .ok r → h' o w = .ok r) {p : Prog S α} {r : α × W}
    (hr : p.run h w = .ok r) : p.run h' w = .ok r := by
  induction p generalizing w with
  | ret a => exact hr
  | call o k ih =>
    cases ho : h o w with
    | ok v =>
      rw [run_call_ok ho] at hr
      rw [run_call_ok (hle o w v ho)]
      exact ih v.1 hr
    | error e =>
      rw [run_call_error ho] at hr
      cases hr

end Run

end Prog

/-! ## Running beside others -/

/-- What the requests do to a world: where a request may be made, and which answers and worlds it may lead to. -/
structure Semantics (S : Signature) (W : Type) where
  allowed : S.Op → W → Prop
  step : (o : S.Op) → W → S.Res o → W → Prop

namespace Prog

variable {S : Signature} {W α β : Type}

/-- A program is safe in a world: whatever changes within the rely `R` come between, each request is allowed and its effect
is within the guarantee `G`, and the value returned meets `Q`. -/
def Safe (M : Semantics S W) (R G : W → W → Prop) (Q : α → W → Prop) : Prog S α → W → Prop
  | .ret a, w => ∀ w', R w w' → Q a w'
  | .call o k, w => ∀ w', R w w' → M.allowed o w' ∧ ∀ r w'', M.step o w' r w'' → G w' w'' ∧ (k r).Safe M R G Q w''

variable {M : Semantics S W} {R G : W → W → Prop} {Q : α → W → Prop}

theorem safe_ret {a : α} {w : W} : (ret a : Prog S α).Safe M R G Q w ↔ ∀ w', R w w' → Q a w' := Iff.rfl

theorem safe_call {o : S.Op} {k : S.Res o → Prog S α} {w : W} :
    (call o k).Safe M R G Q w ↔
      ∀ w', R w w' → M.allowed o w' ∧ ∀ r w'', M.step o w' r w'' → G w' w'' ∧ (k r).Safe M R G Q w'' := Iff.rfl

-- From here on a program's safety is taken apart by the two equivalences only.
attribute [irreducible] Safe

/-- A program stays safe under what the rely allows. -/
theorem Safe.rely (hR : ∀ a b c, R a b → R b c → R a c) {p : Prog S α} {w w' : W} (h : p.Safe M R G Q w) (hw : R w w') :
    p.Safe M R G Q w' := by
  cases p with
  | ret a => exact safe_ret.mpr fun w'' hr => safe_ret.mp h w'' (hR _ _ _ hw hr)
  | call o k => exact safe_call.mpr fun w'' hr => safe_call.mp h w'' (hR _ _ _ hw hr)

/-- A safe program followed by programs that are safe wherever it may return. -/
theorem Safe.bind (hR : ∀ w, R w w) {p : Prog S α} {f : α → Prog S β} {Q : β → W → Prop} {w : W}
    (h : p.Safe M R G (fun a w => (f a).Safe M R G Q w) w) : (p >>= f).Safe M R G Q w := by
  induction p generalizing w with
  | ret a => exact safe_ret.mp h w (hR w)
  | call o k ih =>
    refine safe_call.mpr fun w' hr => ⟨(safe_call.mp h w' hr).1, fun r w'' hs => ?_⟩
    obtain ⟨hg, hk⟩ := (safe_call.mp h w' hr).2 r w'' hs
    exact ⟨hg, ih r hk⟩

/-- A weaker postcondition. -/
theorem Safe.imp {Q' : α → W → Prop} {p : Prog S α} {w : W} (h : p.Safe M R G Q w) (hq : ∀ a w, Q a w → Q' a w) :
    p.Safe M R G Q' w := by
  induction p generalizing w with
  | ret a => exact safe_ret.mpr fun w' hr => hq a w' (safe_ret.mp h w' hr)
  | call o k ih =>
    refine safe_call.mpr fun w' hr => ⟨(safe_call.mp h w' hr).1, fun r w'' hs => ?_⟩
    obtain ⟨hg, hk⟩ := (safe_call.mp h w' hr).2 r w'' hs
    exact ⟨hg, ih r hk⟩

/-- A safe program run alone, each request handled by a program over another signature, which does what the semantics says
and then what the rely allows, and keeps an invariant of the other world, given that the request is within the guarantee. -/
theorem Safe.ends {S' : Signature} {V ε : Type} {h : Handler S' V ε} {X : ε → Prop}
    {k : (o : S.Op) → Prog S' (S.Res o)} {π : V → W} {J : V → Prop} (hRr : ∀ w, R w w) (hRt : ∀ a b c, R a b → R b c → R a c)
    (hop : ∀ o v, J v → M.allowed o (π v) → (∀ r w, M.step o (π v) r w → G (π v) w) →
      Ends h X (k o) (fun r v' => J v' ∧ ∃ w, M.step o (π v) r w ∧ R w (π v')) v)
    {p : Prog S α} {v : V} (hs : p.Safe M R G Q (π v)) (hv : J v) :
    Ends h X (p.handle k) (fun a v' => J v' ∧ Q a (π v')) v := by
  induction p generalizing v with
  | ret a => exact ⟨hv, safe_ret.mp hs _ (hRr _)⟩
  | call o kk ih =>
    obtain ⟨ha, hk⟩ := safe_call.mp hs _ (hRr _)
    refine (hop o v hv ha fun r w hw => (hk r w hw).1).bind fun r v' hr => ?_
    obtain ⟨hv', w, hw, hRw⟩ := hr
    exact ih r ((hk r w hw).2.rely hRt hRw) hv'

end Prog

end Program

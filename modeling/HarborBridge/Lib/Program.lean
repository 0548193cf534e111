import Mathlib.Logic.Function.Basic
import Mathlib.Logic.Relation

/-! Programs that talk to an environment, alone or side by side, and rules to reason
about them. -/
namespace Interaction

/-- A program over the calls `E`. `call e k` makes the call `e` and goes on with
`k r` once the answer `r` is there. -/
inductive Prog (E : Type) (R : E → Type) (α : Type) where
  | ret (a : α) : Prog E R α
  | call (e : E) (k : R e → Prog E R α) : Prog E R α

namespace Prog

variable {E : Type} {R : E → Type} {W α β γ : Type}

protected def bind : Prog E R α → (α → Prog E R β) → Prog E R β
  | ret a, f => f a
  | call e k, f => call e fun r => (k r).bind f

instance : Monad (Prog E R) where
  pure := ret
  bind := Prog.bind

/-- The program that makes one call and returns its answer. -/
def ask (e : E) : Prog E R (R e) := call e ret

@[simp] theorem pure_eq_ret (a : α) : (pure a : Prog E R α) = ret a := rfl

@[simp] theorem ret_bind (a : α) (f : α → Prog E R β) : ret a >>= f = f a := rfl

@[simp] theorem call_bind (e : E) (k : R e → Prog E R α) (f : α → Prog E R β) :
    call e k >>= f = call e fun r => k r >>= f := rfl

@[simp] theorem ask_bind (e : E) (f : R e → Prog E R β) : ask e >>= f = call e f := rfl

theorem bind_assoc (p : Prog E R α) (f : α → Prog E R β) (g : β → Prog E R γ) :
    p >>= f >>= g = p >>= fun a => f a >>= g := by
  induction p with
  | ret a => rfl
  | call e k ih => exact congrArg (call e) (funext ih)

theorem bind_ret (p : Prog E R α) : p >>= ret = p := by
  induction p with
  | ret a => rfl
  | call e k ih => exact congrArg (call e) (funext ih)

end Prog

/-- The same program over other calls: `f` says how a call is made there and `g` what
its answer means here. -/
def Prog.relabel {E E' : Type} {R : E → Type} {R' : E' → Type} {α : Type} (f : E → E')
    (g : ∀ e, R' (f e) → R e) : Prog E R α → Prog E' R' α
  | .ret a => .ret a
  | .call e k => .call (f e) fun r => (k (g e r)).relabel f g

/-- Where a program runs. `sem w e r w'` says that the call `e`, made in `w`, may be
answered `r` and leave `w'`; `may w e` says that the call `e` is allowed in `w`. -/
structure Setting (E : Type) (R : E → Type) (W : Type) where
  sem : W → (e : E) → R e → W → Prop
  may : W → E → Prop

namespace Prog

variable {E : Type} {R : E → Type} {W α β ε : Type}

/-- Run from `w` in the setting `S`, the program makes allowed calls only, and `Q` holds
when it returns. -/
def Wp (S : Setting E R W) : Prog E R α → (α → W → Prop) → W → Prop
  | ret a, Q, w => Q a w
  | call e k, Q, w => S.may w e ∧ ∀ r w', S.sem w e r w' → (k r).Wp S Q w'

variable {S : Setting E R W}

@[simp] theorem wp_ret (a : α) (Q : α → W → Prop) (w : W) :
    (ret a : Prog E R α).Wp S Q w ↔ Q a w := Iff.rfl

theorem wp_ask_bind {e : E} {f : R e → Prog E R β} {Q : β → W → Prop} {w : W} :
    (ask e >>= f).Wp S Q w ↔ S.may w e ∧ ∀ r w', S.sem w e r w' → (f r).Wp S Q w' := Iff.rfl

theorem wp_bind (p : Prog E R α) (f : α → Prog E R β) (Q : β → W → Prop) (w : W) :
    (p >>= f).Wp S Q w ↔ p.Wp S (fun a v => (f a).Wp S Q v) w := by
  induction p generalizing w with
  | ret a => exact Iff.rfl
  | call e k ih =>
    exact and_congr_right fun _ => forall_congr' fun r => forall_congr' fun w' =>
      imp_congr_right fun _ => ih r w'

theorem wp_mono {Q Q' : α → W → Prop} (h : ∀ a w, Q a w → Q' a w) (p : Prog E R α) (w : W)
    (hp : p.Wp S Q w) : p.Wp S Q' w := by
  induction p generalizing w with
  | ret a => exact h a w hp
  | call e k ih => exact ⟨hp.1, fun r w' hs => ih r w' (hp.2 r w' hs)⟩

theorem wp_seq {p : Prog E R α} {f : α → Prog E R β} {P : α → W → Prop} {Q : β → W → Prop}
    {w : W} (hp : p.Wp S P w) (hf : ∀ a v, P a v → (f a).Wp S Q v) : (p >>= f).Wp S Q w :=
  (wp_bind p f Q w).mpr (wp_mono hf p w hp)

theorem wp_and {Q Q' : α → W → Prop} (p : Prog E R α) (w : W) (hp : p.Wp S Q w)
    (hp' : p.Wp S Q' w) : p.Wp S (fun a w => Q a w ∧ Q' a w) w := by
  induction p generalizing w with
  | ret a => exact ⟨hp, hp'⟩
  | call e k ih => exact ⟨hp.1, fun r w' hs => ih r w' (hp.2 r w' hs) (hp'.2 r w' hs)⟩

/-- What is known of the answers alone holds beside the rest. -/
theorem wp_and_sem {Q Q' : α → W → Prop} (p : Prog E R α) (w : W) (hp : p.Wp S Q w)
    (hp' : p.Wp ⟨S.sem, fun _ _ => True⟩ Q' w) : p.Wp S (fun a w => Q a w ∧ Q' a w) w := by
  induction p generalizing w with
  | ret a => exact ⟨hp, hp'⟩
  | call e k ih => exact ⟨hp.1, fun r w' hs => ih r w' (hp.2 r w' hs) (hp'.2 r w' hs)⟩

theorem wp_trivial (hmay : ∀ w e, S.may w e) (p : Prog E R α) (w : W) :
    p.Wp S (fun _ _ => True) w := by
  induction p generalizing w with
  | ret a => trivial
  | call e k ih => exact ⟨hmay w e, fun r w' _ => ih r w'⟩

/-- What every call keeps holds at the end. -/
theorem wp_always (hmay : ∀ w e, S.may w e) (I : W → Prop)
    (hsem : ∀ w e r w', I w → S.sem w e r w' → I w') (p : Prog E R α) (w : W) (hw : I w) :
    p.Wp S (fun _ w' => I w') w := by
  induction p generalizing w with
  | ret a => exact hw
  | call e k ih => exact ⟨hmay w e, fun r w' hs => ih r w' (hsem w e r w' hw hs)⟩

/-- What holds in a setting holds in one with fewer answers that allows more calls. -/
theorem wp_weaken {T : Setting E R W} (hmay : ∀ w e, T.may w e → S.may w e)
    (hsem : ∀ w e r w', S.sem w e r w' → T.sem w e r w') {p : Prog E R α} {Q : α → W → Prop} {w : W}
    (hp : p.Wp T Q w) : p.Wp S Q w := by
  induction p generalizing w with
  | ret a => exact hp
  | call e k ih => exact ⟨hmay w e hp.1, fun r w' hs => ih r (hp.2 r w' (hsem w e r w' hs))⟩

/-- A program that runs on a part of the world leaves the rest alone: `put` places the part
into the world. -/
theorem wp_lens {V : Type} {T : Setting E R V} (put : V → W)
    (hmay : ∀ v e, T.may v e → S.may (put v) e)
    (hsem : ∀ v e r w, S.sem (put v) e r w → ∃ v', w = put v' ∧ T.sem v e r v')
    {p : Prog E R α} {Q : α → V → Prop} {v : V} (hp : p.Wp T Q v) :
    p.Wp S (fun a w => ∃ v', w = put v' ∧ Q a v') (put v) := by
  induction p generalizing v with
  | ret a => exact ⟨v, rfl, hp⟩
  | call e k ih =>
    refine ⟨hmay v e hp.1, fun r w hs => ?_⟩
    obtain ⟨v', rfl, hs'⟩ := hsem v e r w hs
    exact ih r (hp.2 r v' hs')

/-! The calls a program can make -/

/-- Whatever the answers are, the program makes such calls only. -/
def Only (P : E → Prop) : Prog E R α → Prop
  | ret _ => True
  | call e k => P e ∧ ∀ r, (k r).Only P

theorem only_bind {P : E → Prop} {p : Prog E R α} {f : α → Prog E R β} (hp : p.Only P)
    (hf : ∀ a, (f a).Only P) : (p >>= f).Only P := by
  induction p with
  | ret a => exact hf a
  | call e k ih => exact ⟨hp.1, fun r => ih r (hp.2 r)⟩

theorem only_run_bind {P : E → Prop} {p : ExceptT ε (Prog E R) α} {f : α → ExceptT ε (Prog E R) β}
    (hp : p.run.Only P) (hf : ∀ a, (f a).run.Only P) : (p >>= f).run.Only P := by
  refine only_bind hp fun r => ?_
  cases r with
  | ok a => exact hf a
  | error e => trivial

theorem only_lift {P : E → Prop} {p : Prog E R α} (hp : p.Only P) :
    (ExceptT.lift p : ExceptT ε (Prog E R) α).run.Only P :=
  only_bind hp fun _ => trivial

/-- What each of the calls keeps, the program keeps. -/
theorem wp_only {P : E → Prop} {I : W → Prop} {p : Prog E R α} (hp : p.Only P)
    (hkeep : ∀ w e, I w → P e → S.may w e ∧ ∀ r w', S.sem w e r w' → I w') {w : W} (hw : I w) :
    p.Wp S (fun _ => I) w := by
  induction p generalizing w with
  | ret a => exact hw
  | call e k ih =>
    obtain ⟨hmay, hnext⟩ := hkeep w e hw hp.1
    exact ⟨hmay, fun r w' hs => ih r (hp.2 r) (hnext r w' hs)⟩

/-- Whatever the answers are, the program returns such values only. -/
def Returns (Q : α → Prop) : Prog E R α → Prop
  | ret a => Q a
  | call _ k => ∀ r, (k r).Returns Q

theorem returns_mono {Q Q' : α → Prop} (h : ∀ a, Q a → Q' a) (p : Prog E R α) (hp : p.Returns Q) :
    p.Returns Q' := by
  induction p with
  | ret a => exact h a hp
  | call e k ih => exact fun r => ih r (hp r)

theorem returns_true (p : Prog E R α) : p.Returns fun _ => True := by
  induction p with
  | ret a => trivial
  | call e k ih => exact ih

theorem returns_bind {P : α → Prop} {Q : β → Prop} {p : Prog E R α} {f : α → Prog E R β}
    (hp : p.Returns P) (hf : ∀ a, P a → (f a).Returns Q) : (p >>= f).Returns Q := by
  induction p with
  | ret a => exact hf a hp
  | call e k ih => exact fun r => ih r (hp r)

theorem wp_returns {P : α → Prop} {Q : α → W → Prop} {p : Prog E R α} {w : W} (hp : p.Wp S Q w)
    (hr : p.Returns P) : p.Wp S (fun a w' => P a ∧ Q a w') w := by
  induction p generalizing w with
  | ret a => exact ⟨hr, hp⟩
  | call e k ih => exact ⟨hp.1, fun r w' hs => ih r (hp.2 r w' hs) (hr r)⟩

/-! Programs that may end early -/

theorem wp_run_bind (p : ExceptT ε (Prog E R) α) (f : α → ExceptT ε (Prog E R) β)
    (Q : Except ε β → W → Prop) (w : W) :
    (p >>= f).run.Wp S Q w ↔ p.run.Wp S (fun r v => match r with
      | .ok a => (f a).run.Wp S Q v
      | .error e => Q (.error e) v) w := by
  refine (wp_bind p.run (ExceptT.bindCont f) Q w).trans ?_
  have hcont : ∀ r v, (ExceptT.bindCont f r).Wp S Q v ↔ (match r with
      | .ok a => (f a).run.Wp S Q v
      | .error e => Q (.error e) v) := by
    intro r v
    cases r <;> exact Iff.rfl
  exact ⟨wp_mono (fun r v => (hcont r v).mp) _ w, wp_mono (fun r v => (hcont r v).mpr) _ w⟩

theorem wp_run_seq {p : ExceptT ε (Prog E R) α} {f : α → ExceptT ε (Prog E R) β}
    {P : Except ε α → W → Prop} {Q : Except ε β → W → Prop} {w : W} (hp : p.run.Wp S P w)
    (hok : ∀ a v, P (.ok a) v → (f a).run.Wp S Q v)
    (herr : ∀ e v, P (.error e) v → Q (.error e) v) : (p >>= f).run.Wp S Q w := by
  refine (wp_run_bind p f Q w).mpr (wp_mono (fun r v h => ?_) _ w hp)
  cases r with
  | ok a => exact hok a v h
  | error e => exact herr e v h

/-! Whole runs -/

/-- Run from `w` in the setting `S`, the program may return `a` and leave `w'`. -/
inductive Ends (S : Setting E R W) : Prog E R α → W → α → W → Prop where
  | ret (a : α) (w : W) : Ends S (ret a) w a w
  | call {e : E} {k : R e → Prog E R α} {w w' w'' : W} {r : R e} {a : α} (hs : S.sem w e r w')
      (h : Ends S (k r) w' a w'') : Ends S (call e k) w a w''

/-- Run a program against servers that answer every call. -/
def exec (serve : W → (e : E) → R e × W) : Prog E R α → W → α × W
  | ret a, w => (a, w)
  | call e k, w => (k (serve w e).1).exec serve (serve w e).2

def calls (serve : W → (e : E) → R e × W) : Prog E R α → W → Nat
  | ret _, _ => 0
  | call e k, w => (k (serve w e).1).calls serve (serve w e).2 + 1

/-- Such a run is one of those that `Wp` speaks of. `I n` says that `n` more calls are
answered as `S` allows. -/
theorem wp_exec_within (serve : W → (e : E) → R e × W) (I : Nat → W → Prop)
    (hserve : ∀ n w e, I (n + 1) w →
      S.sem w e (serve w e).1 (serve w e).2 ∧ I n (serve w e).2)
    (Q : α → W → Prop) (p : Prog E R α) (w : W) (hw : I (p.calls serve w) w) (hp : p.Wp S Q w) :
    Q (p.exec serve w).1 (p.exec serve w).2 := by
  induction p generalizing w with
  | ret a => exact hp
  | call e k ih =>
    obtain ⟨hs, hI⟩ := hserve _ w e hw
    exact ih _ _ hI (hp.2 _ _ hs)

theorem wp_exec (serve : W → (e : E) → R e × W)
    (hserve : ∀ w e, S.sem w e (serve w e).1 (serve w e).2)
    (Q : α → W → Prop) (p : Prog E R α) (w : W) (hp : p.Wp S Q w) :
    Q (p.exec serve w).1 (p.exec serve w).2 :=
  wp_exec_within serve (fun _ _ => True) (fun _ w e _ => ⟨hserve w e, trivial⟩) Q p w trivial hp

def next : Prog E R α → Option E
  | ret _ => none
  | call e _ => some e

theorem eq_call_of_next {p : Prog E R α} {e : E} (h : p.next = some e) : ∃ k, p = call e k := by
  cases p with
  | ret a => cases h
  | call e' k =>
    cases h
    exact ⟨k, rfl⟩

def advance (serve : W → (e : E) → R e × W) : Nat → Prog E R α → W → Prog E R α × W
  | n + 1, call e k, w => (k (serve w e).1).advance serve n (serve w e).2
  | _, p, w => (p, w)

end Prog

/-- The setting of someone who watches a program, whatever the answers are: `learn` is what
is known after a call and its answer, `allowed` the calls to expect then. -/
def watching {E : Type} {R : E → Type} {K : Type} (learn : K → (e : E) → R e → K)
    (allowed : K → E → Prop) : Setting E R K where
  sem k e r k' := learn k e r = k'
  may := allowed

theorem wp_watching {E : Type} {R : E → Type} {K α : Type} (learn : K → (e : E) → R e → K)
    (allowed : K → E → Prop) (e : E) (f : R e → Prog E R α) (Q : α → K → Prop) (k : K) :
    (Prog.call e f).Wp (watching learn allowed) Q k ↔
      allowed k e ∧ ∀ r, (f r).Wp (watching learn allowed) Q (learn k e r) := by
  refine and_congr_right fun _ => forall_congr' fun r => ?_
  exact ⟨fun h => h _ rfl, fun h k' hk => hk ▸ h⟩

/-- What is learnt by watching stays in step with the world the program runs in. -/
theorem wp_follow {E : Type} {R : E → Type} {K W α : Type} {learn : K → (e : E) → R e → K}
    {allowed : K → E → Prop} {S : Setting E R W} {I : K → W → Prop}
    (hmay : ∀ k w e, I k w → allowed k e → S.may w e)
    (hstep : ∀ k w e r w', I k w → allowed k e → S.sem w e r w' → I (learn k e r) w')
    {p : Prog E R α} {Q : α → K → Prop} {k : K} {w : W} (hp : p.Wp (watching learn allowed) Q k) (hw : I k w) :
    p.Wp S (fun a w' => ∃ k', I k' w' ∧ Q a k') w := by
  induction p generalizing k w with
  | ret a => exact ⟨k, hw, hp⟩
  | call e f ih =>
    obtain ⟨hallowed, hnext⟩ := hp
    refine ⟨hmay k w e hw hallowed, fun r w' hs => ?_⟩
    exact ih r (hnext r _ rfl) (hstep k w e r w' hw hallowed hs)

/-- The state of the world and what each running program still has to do. -/
structure System (ι E : Type) (R : E → Type) (W : Type) where
  world : W
  procs : ι → Option (Prog E R Unit)

namespace System

variable {ι E : Type} {R : E → Type} {W : Type}

def idle (w : W) : System ι E R W := ⟨w, fun _ => none⟩

variable [DecidableEq ι]

/-- One step of programs that run side by side: someone else acts, a program
starts, a program's next call is answered, or a program ends or dies. -/
inductive Step (sem : ι → W → (e : E) → R e → W → Prop) (env : W → W → Prop)
    (starts : ι → Prog E R Unit → Prop) : System ι E R W → System ι E R W → Prop where
  | env (c : System ι E R W) (w : W) (h : env c.world w) :
      Step sem env starts c { c with world := w }
  | start (c : System ι E R W) (i : ι) (p : Prog E R Unit) (hidle : c.procs i = none)
      (h : starts i p) :
      Step sem env starts c { c with procs := Function.update c.procs i (some p) }
  | call (c : System ι E R W) (i : ι) (e : E) (k : R e → Prog E R Unit) (r : R e) (w : W)
      (hrun : c.procs i = some (.call e k)) (h : sem i c.world e r w) :
      Step sem env starts c ⟨w, Function.update c.procs i (some (k r))⟩
  | stop (c : System ι E R W) (i : ι) :
      Step sem env starts c { c with procs := Function.update c.procs i none }

theorem update_some (procs : ι → Option (Prog E R Unit)) (i : ι) (p : Option (Prog E R Unit))
    (P : ι → Prog E R Unit → Prop) (hp : ∀ q, p = some q → P i q)
    (h : ∀ j q, j ≠ i → procs j = some q → P j q) :
    ∀ j q, Function.update procs i p j = some q → P j q := by
  intro j q hq
  by_cases hji : j = i
  · subst hji
    rw [Function.update_self] at hq
    exact hp q hq
  · rw [Function.update_of_ne hji] at hq
    exact h j q hji hq

/-- What every answer and everyone else keeps holds along a run. -/
theorem world_run {sem : ι → W → (e : E) → R e → W → Prop} {env : W → W → Prop}
    {starts : ι → Prog E R Unit → Prop} {P : W → Prop}
    (hcall : ∀ i w e r w', sem i w e r w' → P w → P w') (henv : ∀ w v, env w v → P w → P v)
    {c d : System ι E R W} (hrun : Relation.ReflTransGen (Step sem env starts) c d)
    (hc : P c.world) : P d.world := by
  induction hrun with
  | refl => exact hc
  | tail _ hstep ih =>
    cases hstep with
    | env w h => exact henv _ w h ih
    | start => exact ih
    | call i e k r w hrun h => exact hcall i _ e r w h ih
    | stop => exact ih

end System

/-- Someone who watches each program of a system. -/
structure Observer (ι E : Type) (R : E → Type) (K : Type) where
  learn : ι → K → (e : E) → R e → K
  allowed : ι → K → E → Prop

namespace Observer

variable {ι E : Type} {R : E → Type} {W K : Type} (O : Observer ι E R K)

def setting (i : ι) : Setting E R K := watching (O.learn i) (O.allowed i)

/-- The invariant of the world holds, what is known of each program fits the world, and no
program does what is not expected. -/
def Holds (inv : W → Prop) (fits : ι → K → W → Prop) (c : System ι E R W) : Prop :=
  inv c.world ∧ ∀ i p, c.procs i = some p →
    ∃ k, fits i k c.world ∧ p.Wp (O.setting i) (fun _ _ => True) k

variable {O} {inv : W → Prop} {fits : ι → K → W → Prop}

theorem holds_idle {w : W} (h : inv w) : O.Holds inv fits (System.idle w) := by
  refine ⟨h, fun i p hp => ?_⟩
  cases hp

/-- The call that a program is about to make is an expected one. -/
theorem Holds.allowed {c : System ι E R W} (h : O.Holds inv fits c) {i : ι} {e : E}
    {f : R e → Prog E R Unit} (hrun : c.procs i = some (.call e f)) :
    ∃ k, fits i k c.world ∧ O.allowed i k e := by
  obtain ⟨k, hfits, hwp⟩ := h.2 i _ hrun
  exact ⟨k, hfits, hwp.1⟩

variable [DecidableEq ι] {sem : ι → W → (e : E) → R e → W → Prop} {env : W → W → Prop}
  {starts : ι → Prog E R Unit → Prop}

theorem holds_step
    (hstart : ∀ i p w, starts i p → inv w →
      ∃ k, fits i k w ∧ p.Wp (O.setting i) (fun _ _ => True) k)
    (henv : ∀ w v, env w v → inv w → inv v ∧ ∀ i k, fits i k w → fits i k v)
    (hcall : ∀ i k w e r w', inv w → fits i k w → O.allowed i k e → sem i w e r w' →
      inv w' ∧ fits i (O.learn i k e r) w')
    (hothers : ∀ i k w e r w', inv w → fits i k w → O.allowed i k e → sem i w e r w' →
      ∀ j k', j ≠ i → fits j k' w → fits j k' w')
    (c d : System ι E R W) (hstep : System.Step sem env starts c d) (hc : O.Holds inv fits c) :
    O.Holds inv fits d := by
  obtain ⟨hinv, hprocs⟩ := hc
  cases hstep with
  | env w h =>
    obtain ⟨hinv', hkeep⟩ := henv _ _ h hinv
    refine ⟨hinv', fun i p hp => ?_⟩
    obtain ⟨k, hfits, hwp⟩ := hprocs i p hp
    exact ⟨k, hkeep i k hfits, hwp⟩
  | start i p hidle h =>
    refine ⟨hinv, System.update_some c.procs i (some p) _ (fun q hq => ?_) fun j q _ => hprocs j q⟩
    exact Option.some.inj hq ▸ hstart i p _ h hinv
  | call i e f r w hrun h =>
    obtain ⟨k, hfits, hwp⟩ := hprocs i _ hrun
    obtain ⟨hinv', hfits'⟩ := hcall i k _ e r w hinv hfits hwp.1 h
    refine ⟨hinv', System.update_some c.procs i (some (f r)) _ (fun q hq => ?_)
      fun j q hji hq => ?_⟩
    · exact ⟨_, hfits', Option.some.inj hq ▸ hwp.2 r _ rfl⟩
    · obtain ⟨k', hfits', hwp'⟩ := hprocs j q hq
      exact ⟨k', hothers i k _ e r w hinv hfits hwp.1 h j k' hji hfits', hwp'⟩
  | stop i =>
    refine ⟨hinv, System.update_some c.procs i none _ (fun q hq => ?_) fun j q _ => hprocs j q⟩
    cases hq

/-- The rule for programs that run side by side. Each does only what is expected of it, and
this keeps the invariant and what is known of it and of the others. -/
theorem holds_run
    (hstart : ∀ i p w, starts i p → inv w →
      ∃ k, fits i k w ∧ p.Wp (O.setting i) (fun _ _ => True) k)
    (henv : ∀ w v, env w v → inv w → inv v ∧ ∀ i k, fits i k w → fits i k v)
    (hcall : ∀ i k w e r w', inv w → fits i k w → O.allowed i k e → sem i w e r w' →
      inv w' ∧ fits i (O.learn i k e r) w')
    (hothers : ∀ i k w e r w', inv w → fits i k w → O.allowed i k e → sem i w e r w' →
      ∀ j k', j ≠ i → fits j k' w → fits j k' w')
    {c d : System ι E R W} (hrun : Relation.ReflTransGen (System.Step sem env starts) c d)
    (hc : O.Holds inv fits c) : O.Holds inv fits d := by
  induction hrun with
  | refl => exact hc
  | tail _ hstep ih => exact holds_step hstart henv hcall hothers _ _ hstep ih

end Observer

namespace System

variable {ι E : Type} {R : E → Type} {W : Type} [DecidableEq ι]

variable {sem : ι → W → (e : E) → R e → W → Prop} {env : W → W → Prop}
  {starts : ι → Prog E R Unit → Prop}

/-- A server answers as `sem` allows, from the worlds of `I` on. -/
structure Served (sem : ι → W → (e : E) → R e → W → Prop) (i : ι) (I : W → Prop)
    (serve : W → (e : E) → R e × W) : Prop where
  answers : ∀ w, I w → ∀ e, sem i w e (serve w e).1 (serve w e).2
  keeps : ∀ w, I w → ∀ e, I (serve w e).2

theorem step_serve {i : ι} {I : W → Prop} {serve : W → (e : E) → R e × W}
    (hserve : Served sem i I serve) (e : E) (k : R e → Prog E R Unit) {w : W} (hw : I w)
    (procs : ι → Option (Prog E R Unit)) :
    Step sem env starts ⟨w, Function.update procs i (some (.call e k))⟩
      ⟨(serve w e).2, Function.update procs i (some (k (serve w e).1))⟩ := by
  have hcall : Step sem env starts ⟨w, Function.update procs i (some (.call e k))⟩ _ :=
    .call _ i e k (serve w e).1 (serve w e).2 (Function.update_self ..) (hserve.answers w hw e)
  rwa [Function.update_idem] at hcall

/-- A program that runs alone for some calls, against a server, is a run of the system. -/
theorem run_advance {i : ι} {I : W → Prop} {serve : W → (e : E) → R e × W}
    (hserve : Served sem i I serve) (n : Nat) (p : Prog E R Unit) (hp : starts i p) {w : W}
    (hw : I w) (procs : ι → Option (Prog E R Unit)) (hidle : procs i = none) :
    Relation.ReflTransGen (Step sem env starts) ⟨w, procs⟩
      ⟨(p.advance serve n w).2, Function.update procs i (some (p.advance serve n w).1)⟩ := by
  have hbody : ∀ (q : Prog E R Unit) (v : W), I v → Relation.ReflTransGen (Step sem env starts)
      ⟨v, Function.update procs i (some q)⟩
      ⟨(q.advance serve n v).2, Function.update procs i (some (q.advance serve n v).1)⟩ := by
    induction n with
    | zero => exact fun q v _ => .refl
    | succ n ih =>
      intro q v hv
      cases q with
      | ret a => exact .refl
      | call e k => exact .head (step_serve hserve e k hv procs) (ih _ _ (hserve.keeps v hv e))
  exact .head (.start ⟨w, procs⟩ i p hidle hp) (hbody p w hw)

/-- So is the rest of a program, up to its end. -/
theorem run_rest {i : ι} {I : W → Prop} {serve : W → (e : E) → R e × W}
    (hserve : Served sem i I serve) (p : Prog E R Unit) {w : W} (hw : I w)
    (procs : ι → Option (Prog E R Unit)) (hidle : procs i = none) :
    Relation.ReflTransGen (Step sem env starts) ⟨w, Function.update procs i (some p)⟩
      ⟨(p.exec serve w).2, procs⟩ := by
  induction p generalizing w with
  | ret a =>
    have hstop : Step sem env starts ⟨w, Function.update procs i (some (.ret a))⟩ _ := .stop _ i
    rw [Function.update_idem, ← hidle, Function.update_eq_self] at hstop
    exact .single hstop
  | call e k ih => exact .head (step_serve hserve e k hw procs) (ih _ (hserve.keeps w hw e))

/-- And one that runs to its end. -/
theorem run_exec {i : ι} {I : W → Prop} {serve : W → (e : E) → R e × W}
    (hserve : Served sem i I serve) (p : Prog E R Unit) (hp : starts i p) {w : W} (hw : I w)
    (procs : ι → Option (Prog E R Unit)) (hidle : procs i = none) :
    Relation.ReflTransGen (Step sem env starts) ⟨w, procs⟩ ⟨(p.exec serve w).2, procs⟩ :=
  .head (.start ⟨w, procs⟩ i p hidle hp) (run_rest hserve p hw procs hidle)

end System

end Interaction

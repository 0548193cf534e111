import HarborBridge.Lib.Program
import Mathlib.Tactic.SplitIfs

/-! Programs side by side that take exclusive locks and give them back, what each of them may
rely on, and when they never wait for each other in a circle. -/
namespace Interaction

/-- Which calls are about locks: `wants e` is the lock that the call `e` asks for, `grants e r`
tells whether the answer `r` gives it, and `frees e` is the lock that `e` gives back. -/
structure Locking (E : Type) (R : E → Type) (Λ : Type) where
  wants : E → Option Λ
  grants : (e : E) → R e → Bool
  frees : E → Option Λ

/-- What happened: a call and its answer, or the end of a program. -/
inductive Event (ι E : Type) (R : E → Type) where
  | call (i : ι) (e : E) (r : R e)
  | stop (i : ι)

/-- The world, who holds each lock, and what happened so far, the last first. -/
structure View (ι E : Type) (R : E → Type) (Λ W : Type) where
  world : W
  holder : Λ → Option ι
  log : List (Event ι E R)

structure Machine (ι E : Type) (R : E → Type) (Λ W : Type) where
  view : View ι E R Λ W
  procs : ι → Option (Prog E R Unit)

namespace Machine

variable {ι E : Type} {R : E → Type} {Λ W : Type}

def idle (w : W) : Machine ι E R Λ W := ⟨⟨w, fun _ => none, []⟩, fun _ => none⟩

def Waits (K : Locking E R Λ) (c : Machine ι E R Λ W) (i j : ι) : Prop :=
  ∃ e k l, c.procs i = some (.call e k) ∧ K.wants e = some l ∧ c.view.holder l = some j

/-- A program that asks for a lock holds none, or holds the gate and not the lock it asks for.
Then no programs wait in a circle: each of them would hold the gate. -/
theorem acyclic_of_gate {K : Locking E R Λ} {c : Machine ι E R Λ W} (gate : Λ)
    (h : ∀ i e k l, c.procs i = some (.call e k) → K.wants e = some l →
      (∀ l', c.view.holder l' ≠ some i) ∨ c.view.holder gate = some i ∧ c.view.holder l ≠ some i)
    (i : ι) : ¬ Relation.TransGen (Waits K c) i i := by
  have hgate : ∀ a b d, Waits K c a b → Waits K c b d → c.view.holder gate = some b ∧ b ≠ d := by
    rintro a b d ⟨_, _, l, -, -, hheld⟩ ⟨e, k, l', hrun, hwants, hd⟩
    rcases h b e k l' hrun hwants with hnone | ⟨hb, hne⟩
    · exact absurd hheld (hnone l)
    · refine ⟨hb, ?_⟩
      rintro rfl
      exact hne hd
  intro hcycle
  obtain ⟨j, hij, hji⟩ := Relation.TransGen.head'_iff.mp hcycle
  obtain ⟨a, -, hai⟩ := Relation.TransGen.tail'_iff.mp hcycle
  obtain ⟨hi, hne⟩ := hgate a i j hai hij
  rcases Relation.ReflTransGen.cases_head hji with heq | ⟨b, hjb, -⟩
  · exact hne heq.symm
  · obtain ⟨hj, -⟩ := hgate i j b hij hjb
    rw [hi] at hj
    exact hne (Option.some.inj hj)

/-- The invariant holds, a program that does not run holds no lock, and of each that runs it is
known what it does next. -/
structure Follows {κ : Type} (S : ι → Setting E R κ) (inv : View ι E R Λ W → Prop)
    (fits : ι → κ → View ι E R Λ W → Prop) (c : Machine ι E R Λ W) : Prop where
  inv : inv c.view
  idle : ∀ i, c.procs i = none → ∀ l, c.view.holder l ≠ some i
  runs : ∀ i p, c.procs i = some p → ∃ k, fits i k c.view ∧ p.Wp (S i) (fun _ _ => True) k

variable {κ : Type} {S : ι → Setting E R κ} {inv : View ι E R Λ W → Prop}
  {fits : ι → κ → View ι E R Λ W → Prop} {K : Locking E R Λ}

theorem follows_idle {w : W} (h : inv (idle w : Machine ι E R Λ W).view) : Follows S inv fits (idle w) where
  inv := h
  idle _ _ _ hheld := by cases hheld
  runs _ _ hrun := by cases hrun

theorem Follows.may {c : Machine ι E R Λ W} (h : Follows S inv fits c) {i : ι} {e : E}
    {f : R e → Prog E R Unit} (hrun : c.procs i = some (.call e f)) :
    ∃ k, fits i k c.view ∧ (S i).may k e := by
  obtain ⟨k, hfits, hwp⟩ := h.runs i _ hrun
  exact ⟨k, hfits, hwp.1⟩

variable [DecidableEq ι] [DecidableEq Λ]

def taken (K : Locking E R Λ) (e : E) (r : R e) : Option Λ :=
  if K.grants e r then K.wants e else none

omit [DecidableEq ι] [DecidableEq Λ] in
theorem taken_eq_none {e : E} (h : K.wants e = none) (r : R e) : taken K e r = none := by
  unfold taken
  split_ifs
  · exact h
  · rfl

def called (K : Locking E R Λ) (v : View ι E R Λ W) (i : ι) (e : E) (r : R e) (w : W) :
    View ι E R Λ W where
  world := w
  holder l := if taken K e r = some l then some i
    else if K.frees e = some l ∧ v.holder l = some i then none else v.holder l
  log := .call i e r :: v.log

def stopped (v : View ι E R Λ W) (i : ι) : View ι E R Λ W where
  world := v.world
  holder l := if v.holder l = some i then none else v.holder l
  log := .stop i :: v.log

/-- A program starts, its next call is answered, or it ends or dies. A lock that is held is not
given. -/
inductive Step (K : Locking E R Λ) (sem : ι → W → (e : E) → R e → W → Prop)
    (starts : ι → Prog E R Unit → Prop) : Machine ι E R Λ W → Machine ι E R Λ W → Prop where
  | start (c : Machine ι E R Λ W) (i : ι) (p : Prog E R Unit) (hidle : c.procs i = none)
      (h : starts i p) : Step K sem starts c { c with procs := Function.update c.procs i (some p) }
  | call (c : Machine ι E R Λ W) (i : ι) (e : E) (k : R e → Prog E R Unit) (r : R e) (w : W)
      (hrun : c.procs i = some (.call e k)) (h : sem i c.view.world e r w)
      (hfree : ∀ l, taken K e r = some l → c.view.holder l = none) :
      Step K sem starts c ⟨called K c.view i e r w, Function.update c.procs i (some (k r))⟩
  | stop (c : Machine ι E R Λ W) (i : ι) :
      Step K sem starts c ⟨stopped c.view i, Function.update c.procs i none⟩

variable {sem : ι → W → (e : E) → R e → W → Prop} {starts : ι → Prog E R Unit → Prop}

theorem called_holder_ne {v : View ι E R Λ W} {i j : ι} {e : E} {r : R e} {w : W} (hji : j ≠ i) {l : Λ}
    (h : v.holder l ≠ some j) : (called K v i e r w).holder l ≠ some j := by
  unfold called
  dsimp only
  split_ifs
  · exact fun heq => hji (Option.some.inj heq).symm
  · exact (Option.some_ne_none j).symm
  · exact h

omit [DecidableEq Λ] in
theorem stopped_holder_ne {v : View ι E R Λ W} {i j : ι} {l : Λ} (h : j = i ∨ v.holder l ≠ some j) :
    (stopped v i).holder l ≠ some j := by
  unfold stopped
  dsimp only
  split_ifs with hheld
  · exact (Option.some_ne_none j).symm
  · rcases h with rfl | h
    · exact hheld
    · exact h

/-- A call of one program leaves the others their locks. -/
theorem called_holder_other {v : View ι E R Λ W} {i j : ι} {e : E} {r : R e} {w : W} (hji : j ≠ i)
    (hfree : ∀ l, taken K e r = some l → v.holder l = none) (l : Λ) :
    (called K v i e r w).holder l = some j ↔ v.holder l = some j := by
  have hij : some i ≠ some j := fun h => hji (Option.some.inj h).symm
  unfold called
  dsimp only
  split_ifs with htaken hfreed
  · rw [hfree l htaken]
    exact iff_of_false hij (Option.some_ne_none j).symm
  · rw [hfreed.2]
    exact iff_of_false not_false hij
  · exact Iff.rfl

omit [DecidableEq Λ] in
theorem stopped_holder_other {v : View ι E R Λ W} {i j : ι} (hji : j ≠ i) (l : Λ) :
    (stopped v i).holder l = some j ↔ v.holder l = some j := by
  unfold stopped
  dsimp only
  split_ifs with hheld
  · rw [hheld]
    exact iff_of_false not_false fun h => hji (Option.some.inj h).symm
  · exact Iff.rfl

theorem called_holder_eq {v : View ι E R Λ W} {i : ι} {e : E} {r : R e} {w : W} (hwants : K.wants e = none)
    (hfrees : K.frees e = none) (l : Λ) : (called K v i e r w).holder l = v.holder l := by
  unfold called taken
  dsimp only
  rw [hwants, hfrees]
  simp

theorem update_none {procs : ι → Option (Prog E R Unit)} {i j : ι} {p : Option (Prog E R Unit)}
    (h : Function.update procs i p j = none) : j = i ∧ p = none ∨ j ≠ i ∧ procs j = none := by
  by_cases hji : j = i
  · subst hji
    rw [Function.update_self] at h
    exact .inl ⟨rfl, h⟩
  · rw [Function.update_of_ne hji] at h
    exact .inr ⟨hji, h⟩

/-- The rule for programs with locks, as for those without. -/
theorem follows_run
    (hstart : ∀ i p v, starts i p → inv v → (∀ l, v.holder l ≠ some i) →
      ∃ k, fits i k v ∧ p.Wp (S i) (fun _ _ => True) k)
    (hcall : ∀ i k v e r w, inv v → fits i k v → (S i).may k e → sem i v.world e r w →
      (∀ l, taken K e r = some l → v.holder l = none) →
      inv (called K v i e r w) ∧ (∃ k', (S i).sem k e r k' ∧ fits i k' (called K v i e r w)) ∧
        ∀ j k', j ≠ i → fits j k' v → fits j k' (called K v i e r w))
    (hstop : ∀ i v, inv v → inv (stopped v i) ∧ ∀ j k, j ≠ i → fits j k v → fits j k (stopped v i))
    {c d : Machine ι E R Λ W} (hrun : Relation.ReflTransGen (Step K sem starts) c d)
    (hc : Follows S inv fits c) : Follows S inv fits d := by
  induction hrun with
  | refl => exact hc
  | @tail b d _ hstep ih =>
    cases hstep with
    | start i p hidle h =>
      refine ⟨ih.inv, fun j hj => ?_, System.update_some b.procs i (some p) _ (fun q hq => ?_)
        fun j q _ => ih.runs j q⟩
      · rcases update_none hj with ⟨-, hp⟩ | ⟨-, hj⟩
        · cases hp
        · exact ih.idle j hj
      · exact Option.some.inj hq ▸ hstart i p _ h ih.inv (ih.idle i hidle)
    | call i e k r w hproc h hfree =>
      obtain ⟨κ₀, hfits, hwp⟩ := ih.runs i _ hproc
      obtain ⟨hinv', ⟨κ₁, hsem, hfits'⟩, hothers⟩ := hcall i κ₀ _ e r w ih.inv hfits hwp.1 h hfree
      refine ⟨hinv', fun j hj l => ?_, System.update_some b.procs i (some (k r)) _ (fun q hq => ?_)
        fun j q hji hq => ?_⟩
      · rcases update_none hj with ⟨-, hp⟩ | ⟨hji, hj⟩
        · cases hp
        · exact called_holder_ne hji (ih.idle j hj l)
      · exact ⟨κ₁, hfits', Option.some.inj hq ▸ hwp.2 r _ hsem⟩
      · obtain ⟨κ', hfits', hwp'⟩ := ih.runs j q hq
        exact ⟨κ', hothers j κ' hji hfits', hwp'⟩
    | stop i =>
      obtain ⟨hinv', hothers⟩ := hstop i b.view ih.inv
      refine ⟨hinv', fun j hj l => ?_, System.update_some b.procs i none _ (fun q hq => ?_)
        fun j q hji hq => ?_⟩
      · rcases update_none hj with ⟨hji, -⟩ | ⟨-, hj⟩
        · exact stopped_holder_ne (.inl hji)
        · exact stopped_holder_ne (.inr (ih.idle j hj l))
      · cases hq
      · obtain ⟨κ', hfits', hwp'⟩ := ih.runs j q hq
        exact ⟨κ', hothers j κ' hji hfits', hwp'⟩

/-! ## A program that runs alone -/

/-- The first calls of a program, answered by a server, as long as no lock is missing; what is left
of it, and the view then. -/
def advance (K : Locking E R Λ) (serve : W → (e : E) → R e × W) (i : ι) :
    Nat → Prog E R Unit → View ι E R Λ W → Option (Prog E R Unit × View ι E R Λ W)
  | n + 1, .call e k, v =>
    let r := (serve v.world e).1
    if (taken K e r).all fun l => (v.holder l).isNone then
      advance K serve i n (k r) (called K v i e r (serve v.world e).2)
    else none
  | _, p, v => some (p, v)

theorem run_advance {i : ι} {serve : W → (e : E) → R e × W} (hserve : ∀ w e, sem i w e (serve w e).1 (serve w e).2)
    {n : Nat} {p q : Prog E R Unit} {v v' : View ι E R Λ W} (h : advance K serve i n p v = some (q, v'))
    (procs : ι → Option (Prog E R Unit)) :
    Relation.ReflTransGen (Step K sem starts) ⟨v, Function.update procs i (some p)⟩
      ⟨v', Function.update procs i (some q)⟩ := by
  induction n generalizing p v with
  | zero =>
    cases p <;> cases h <;> exact .refl
  | succ n ih =>
    cases p with
    | ret a =>
      cases h
      exact .refl
    | call e k =>
      simp only [advance] at h
      split_ifs at h with hfree
      refine .head ?_ (ih h)
      have hcall : Step K sem starts ⟨v, Function.update procs i (some (.call e k))⟩ _ :=
        .call _ i e k (serve v.world e).1 (serve v.world e).2 (Function.update_self ..) (hserve _ e) fun l hl => by
          rw [hl] at hfree
          simpa using hfree
      rwa [Function.update_idem] at hcall

variable (sem) in
/-- The same from its start. -/
theorem run_start {i : ι} {serve : W → (e : E) → R e × W} (hserve : ∀ w e, sem i w e (serve w e).1 (serve w e).2)
    {n : Nat} {p q : Prog E R Unit} {v v' : View ι E R Λ W} (h : advance K serve i n p v = some (q, v'))
    (hp : starts i p) {procs : ι → Option (Prog E R Unit)} (hidle : procs i = none) :
    Relation.ReflTransGen (Step K sem starts) ⟨v, procs⟩ ⟨v', Function.update procs i (some q)⟩ :=
  .head (.start ⟨v, procs⟩ i p hidle hp) (run_advance hserve h procs)

/-! ## What a lock guards -/

/-- A part of the world that only the holder of a lock changes. -/
structure Guard (Λ W V : Type) where
  lock : Λ
  part : W → V

section

variable {V : Type} (G : Guard Λ W V)

/-- The setting of a program that uses a guarded part. Without the lock it knows nothing of the
part but the invariant and leaves it alone. With the lock it knows the part, and what it does to
it keeps the invariant and is what the others accept. -/
def guarded (K : Locking E R Λ) (sem : W → (e : E) → R e → W → Prop) (inv : V → Prop)
    (accept : V → V → Prop) : Setting E R (Option V) where
  sem k e r k' :=
    match k with
    | none => ∃ w w', inv (G.part w) ∧ sem w e r w' ∧
        k' = if taken K e r = some G.lock then some (G.part w') else none
    | some v => ∃ w w', G.part w = v ∧ sem w e r w' ∧
        k' = if K.frees e = some G.lock then none else some (G.part w')
  may k e :=
    match k with
    | none => ∀ w r w', inv (G.part w) → sem w e r w' → G.part w' = G.part w
    | some v => ∀ w r w', G.part w = v → sem w e r w' → inv (G.part w') ∧ accept v (G.part w')

def Knows (i : ι) (k : Option V) (v : View ι E R Λ W) : Prop :=
  match k with
  | none => v.holder G.lock ≠ some i
  | some p => v.holder G.lock = some i ∧ G.part v.world = p

variable {G} {inv : V → Prop} {accept : ι → V → V → Prop}

omit [DecidableEq ι] in
/-- A call of a program changes the guarded part only under the lock, and then as it may. -/
theorem guarded_call {i : ι} {k : Option V} {v : View ι E R Λ W} {e : E} {r : R e} {w : W}
    (hinv : inv (G.part v.world)) (hknows : Knows G i k v)
    (hmay : (guarded G K (sem i) inv (accept i)).may k e) (hsem : sem i v.world e r w) :
    inv (G.part w) ∧ (G.part w = G.part v.world ∨
      v.holder G.lock = some i ∧ accept i (G.part v.world) (G.part w)) := by
  cases k with
  | none =>
    have hpart := hmay v.world r w hinv hsem
    rw [hpart]
    exact ⟨hinv, .inl rfl⟩
  | some p =>
    obtain ⟨hheld, hpart⟩ := hknows
    obtain ⟨hinv', haccept⟩ := hmay v.world r w hpart hsem
    rw [← hpart] at haccept
    exact ⟨hinv', .inr ⟨hheld, haccept⟩⟩

/-- Programs that are right about a guarded part when nobody interferes are right side by side. -/
theorem guarded_run (hstart : ∀ i p, starts i p → p.Wp (guarded G K (sem i) inv (accept i)) (fun _ _ => True) none)
    {c d : Machine ι E R Λ W} (hrun : Relation.ReflTransGen (Step K sem starts) c d)
    (hc : Follows (fun i => guarded G K (sem i) inv (accept i)) (fun v => inv (G.part v.world)) (Knows G) c) :
    Follows (fun i => guarded G K (sem i) inv (accept i)) (fun v => inv (G.part v.world)) (Knows G) d := by
  refine follows_run ?_ ?_ ?_ hrun hc
  · intro i p v hp _ hheld
    exact ⟨none, hheld G.lock, hstart i p hp⟩
  · intro i k v e r w hinv hknows hmay hsem hfree
    obtain ⟨hinv', hpart⟩ := guarded_call hinv hknows hmay hsem
    refine ⟨hinv', ?_, fun j k' hji hknows' => ?_⟩
    · cases k with
      | none =>
        refine ⟨_, ⟨v.world, w, hinv, hsem, rfl⟩, ?_⟩
        split_ifs with htaken
        · refine ⟨?_, rfl⟩
          simp [called, htaken]
        · intro hheld
          unfold called at hheld
          dsimp only at hheld
          split_ifs at hheld
          exact hknows hheld
      | some p =>
        refine ⟨_, ⟨v.world, w, hknows.2, hsem, rfl⟩, ?_⟩
        split_ifs with hfrees
        · intro hheld
          unfold called at hheld
          dsimp only at hheld
          split_ifs at hheld with htaken hfreed
          · have hlock := hknows.1
            rw [hfree _ htaken] at hlock
            cases hlock
          · exact hfreed ⟨hfrees, hheld⟩
        · refine ⟨?_, rfl⟩
          unfold called
          dsimp only
          split_ifs with htaken hfreed
          · rfl
          · exact absurd hfreed.1 hfrees
          · exact hknows.1
    · cases k' with
      | none => exact fun hheld => hknows' ((called_holder_other hji hfree _).mp hheld)
      | some p =>
        refine ⟨(called_holder_other hji hfree _).mpr hknows'.1, ?_⟩
        rcases hpart with hsame | ⟨hheld, -⟩
        · exact hsame.trans hknows'.2
        · rw [hknows'.1] at hheld
          exact absurd (Option.some.inj hheld) hji
  · intro i v hinv
    refine ⟨hinv, fun j k hji hknows => ?_⟩
    cases k with
    | none => exact fun hheld => hknows ((stopped_holder_other hji _).mp hheld)
    | some p => exact ⟨(stopped_holder_other hji _).mpr hknows.1, hknows.2⟩

/-- Whatever happens next, the guarded part stays, or a program changes it as it may. -/
theorem guarded_step {c d : Machine ι E R Λ W}
    (hc : Follows (fun i => guarded G K (sem i) inv (accept i)) (fun v => inv (G.part v.world)) (Knows G) c)
    (hstep : Step K sem starts c d) : ∃ newer, d.view.log = newer ++ c.view.log ∧
      (G.part d.view.world = G.part c.view.world ∨
        ∃ i e r, newer = [.call i e r] ∧ accept i (G.part c.view.world) (G.part d.view.world)) := by
  cases hstep with
  | start => exact ⟨[], rfl, .inl rfl⟩
  | stop i => exact ⟨[.stop i], rfl, .inl rfl⟩
  | call i e k r w hproc hsem hfree =>
    obtain ⟨κ, hknows, hwp⟩ := hc.runs i _ hproc
    refine ⟨[.call i e r], rfl, ?_⟩
    rcases (guarded_call hc.inv hknows hwp.1 hsem).2 with hsame | ⟨-, haccept⟩
    · exact .inl hsame
    · exact .inr ⟨i, e, r, rfl, haccept⟩

/-- What some programs leave alone stays as long as only they make calls. -/
theorem guarded_stays {X : Type} (f : V → X) (P : ι → Prop) (hP : ∀ i v v', P i → accept i v v' → f v' = f v)
    (hstart : ∀ i p, starts i p → p.Wp (guarded G K (sem i) inv (accept i)) (fun _ _ => True) none)
    {c d : Machine ι E R Λ W} (hrun : Relation.ReflTransGen (Step K sem starts) c d)
    (hc : Follows (fun i => guarded G K (sem i) inv (accept i)) (fun v => inv (G.part v.world)) (Knows G) c) :
    ∃ newer, d.view.log = newer ++ c.view.log ∧
      ((∀ i e r, .call i e r ∈ newer → P i) → f (G.part d.view.world) = f (G.part c.view.world)) := by
  induction hrun with
  | refl => exact ⟨[], rfl, fun _ => rfl⟩
  | @tail b d hrun hstep ih =>
    obtain ⟨newer, hlog, hsame⟩ := ih
    obtain ⟨last, hlast, hpart⟩ := guarded_step (guarded_run hstart hrun hc) hstep
    refine ⟨last ++ newer, by rw [hlast, hlog, List.append_assoc], fun hcalls => ?_⟩
    have hbefore := hsame fun i e r hmem => hcalls i e r (List.mem_append_right _ hmem)
    rcases hpart with hpart | ⟨i, e, r, rfl, haccept⟩
    · rw [hpart, hbefore]
    · rw [hP i _ _ (hcalls i e r (List.mem_append_left _ List.mem_cons_self)) haccept, hbefore]

end

end Machine

end Interaction

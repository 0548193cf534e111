import HarborBridge.Lib.Program
import HarborBridge.Lib.Rfc3339

/-!
# A kubelet that stays up

Package main of the installer, restart.go: the wait after a restart of kubelet. What systemd reports
at two moments is set against the processes that the unit ran between them.
-/

namespace HarborBridge.Installer

open GoStrings Interaction Rfc3339

/-! ## restart.go -/

structure UnitStatus where
  activeState : GoString
  /-- 0 while no main process runs. -/
  mainPID : Int
  /-- -1 when systemd does not report it. -/
  nRestarts : Int
  deriving DecidableEq

structure VerifyTiming where
  timeout : Int
  interval : Int
  settle : Int

def defaultVerifyTiming : VerifyTiming := ⟨90 * second, 2 * second, 15 * second⟩

inductive VerifyCall where
  | now
  | status
  /-- The check that the caller hands over, of the running kubelet's flags. -/
  | check
  | sleep (d : Int)

abbrev VerifyCall.Answer : VerifyCall → Type
  | now => Int
  | status => Option UnitStatus
  | check => Bool
  | sleep _ => Unit

abbrev VerifyProg := Prog VerifyCall VerifyCall.Answer

def sameProcess (first second : UnitStatus) : Bool :=
  decide (second.activeState = lit "active") &&
    (decide (0 < second.mainPID) && decide (second.mainPID = first.mainPID)) &&
    (decide (first.nRestarts < 0) || decide (second.nRestarts < 0) ||
      decide (first.nRestarts = second.nRestarts))

inductive VerifyErr where
  | status
  | notWired
  | unstable (last : UnitStatus)
  deriving DecidableEq

/-- How one turn of the loop ends; `again` carries the last status and whether the last check passed. -/
inductive Sampled where
  | healthy
  | broken
  | again (last : UnitStatus) (wired : Bool)

def runCheck (checks : Bool) : VerifyProg Bool := if checks then Prog.ask VerifyCall.check else pure true

/-- The body of the loop of `waitKubeletHealthy`, up to its last sleep. -/
def sample (vt : VerifyTiming) (checks wired : Bool) : VerifyProg Sampled := do
  match ← Prog.ask VerifyCall.status with
  | none => return .broken
  | some first =>
    if first.activeState = lit "active" ∧ 0 < first.mainPID then do
      if ← runCheck checks then do
        let _ ← Prog.ask (VerifyCall.sleep vt.settle)
        match ← Prog.ask VerifyCall.status with
        | none => return .broken
        | some second => return if sameProcess first second then .healthy else .again second true
      else return .again first false
    else return .again first wired

/-- The loop, for at most `turns` more turns; none when they are used up. -/
def waitLoop (vt : VerifyTiming) (checks : Bool) (deadline : Int) :
    (turns : Nat) → UnitStatus → Bool → VerifyProg (Option (Except VerifyErr Unit))
  | 0, _, _ => return none
  | turns + 1, last, wired => do
    let now ← Prog.ask VerifyCall.now
    if now < deadline then do
      match ← sample vt checks wired with
      | .healthy => return some (.ok ())
      | .broken => return some (.error .status)
      | .again last wired => do
        let _ ← Prog.ask (VerifyCall.sleep vt.interval)
        waitLoop vt checks deadline turns last wired
    else return some (.error (if wired then .unstable last else .notWired))

/-- `checks` tells whether the caller hands over a check. -/
def waitKubeletHealthy (vt : VerifyTiming) (checks : Bool) : VerifyProg (Option (Except VerifyErr Unit)) := do
  let start ← Prog.ask VerifyCall.now
  waitLoop vt checks (start + vt.timeout) ((vt.timeout / vt.interval).toNat + 2) ⟨[], 0, 0⟩ true

/-! ## The unit -/

/-- The processes that the kubelet unit runs one after the other, from the restart on. -/
structure UnitHistory where
  /-- How many of them were started by then. -/
  starts : Int → Nat
  running : Int → Bool
  pid : Nat → Nat
  /-- NRestarts, none when systemd does not report it. -/
  restarts : Int → Option Nat
  starts_mono : ∀ s t, s ≤ t → starts s ≤ starts t
  /-- A process that runs has been running since it was started. -/
  running_since : ∀ s t, s ≤ t → starts s = starts t → running t = true → running s = true
  /-- Every start after the first one is an automatic restart, which systemd has counted by the time
  the process runs. -/
  restarts_count : ∀ s t m n, s ≤ t → running s = true → running t = true → restarts s = some m →
    restarts t = some n → n + starts s = m + starts t

namespace UnitHistory

variable (U : UnitHistory)

structure Reports (t : Int) (s : UnitStatus) : Prop where
  mainPID : s.mainPID = if U.running t then (U.pid (U.starts t) : Int) else 0
  nRestarts : s.nRestarts = ((U.restarts t).map fun n => (n : Int)).getD (-1)

def UpFrom (s t : Int) : Prop := ∀ u, s ≤ u → u ≤ t → U.running u = true ∧ U.starts u = U.starts s

/-- Two processes of the unit can be told apart: systemd counts the restarts, or no process id comes
twice. -/
def Distinct : Prop := (∀ t, (U.restarts t).isSome = true) ∨ Function.Injective U.pid

variable {U}

theorem Reports.running {t : Int} {s : UnitStatus} (h : U.Reports t s) (hpid : 0 < s.mainPID) :
    U.running t = true ∧ s.mainPID = U.pid (U.starts t) := by
  have hmain := h.mainPID
  cases hrun : U.running t with
  | false =>
    rw [hrun] at hmain
    simp only [Bool.false_eq_true, if_false] at hmain
    omega
  | true =>
    rw [hrun, if_pos rfl] at hmain
    exact ⟨rfl, hmain⟩

/-- Within one process nothing else was started, and it never stopped. -/
theorem upFrom_of_starts {s t : Int} (hstarts : U.starts s = U.starts t) (hrun : U.running t = true) :
    U.UpFrom s t := by
  intro u hsu hut
  have hlow : U.starts s ≤ U.starts u := U.starts_mono s u hsu
  have hhigh : U.starts u ≤ U.starts t := U.starts_mono u t hut
  have hsame : U.starts u = U.starts t := by omega
  exact ⟨U.running_since u t hut hsame hrun, hsame.trans hstarts.symm⟩

/-- The two samples that the installer takes for one process are of one process. -/
theorem upFrom_of_sameProcess (hdistinct : U.Distinct) {s t : Int} {first second : UnitStatus} (hst : s ≤ t)
    (hfirst : U.Reports s first) (hsecond : U.Reports t second) (hpid : 0 < first.mainPID)
    (hsame : sameProcess first second = true) : U.UpFrom s t := by
  simp only [sameProcess, Bool.and_eq_true, Bool.or_eq_true, decide_eq_true_eq] at hsame
  obtain ⟨⟨-, hpos, hmain⟩, hrestarts⟩ := hsame
  obtain ⟨hrunningFirst, hpidFirst⟩ := hfirst.running hpid
  obtain ⟨hrunning, hpidSecond⟩ := hsecond.running hpos
  apply upFrom_of_starts _ hrunning
  rcases hdistinct with hcounted | hinjective
  · -- both samples carry the counter, which is the same, so nothing was started in between
    obtain ⟨m, hm⟩ := Option.isSome_iff_exists.mp (hcounted s)
    obtain ⟨n, hn⟩ := Option.isSome_iff_exists.mp (hcounted t)
    have hcountFirst : first.nRestarts = m := by
      rw [hfirst.nRestarts, hm]
      rfl
    have hcountSecond : second.nRestarts = n := by
      rw [hsecond.nRestarts, hn]
      rfl
    have hcount := U.restarts_count s t m n hst hrunningFirst hrunning hm hn
    omega
  · apply hinjective
    omega

/-! ## The wait -/

/-- What the calls of the wait may answer. `wired t` says that the check passes at `t`; a moment lies
between the start and the end of its call. -/
def setting (U : UnitHistory) (wired : Int → Prop) : Setting VerifyCall VerifyCall.Answer Int where
  sem w c := match c with
    | .now => fun (r w' : Int) => w ≤ r ∧ r ≤ w'
    | .status => fun r w' => w ≤ w' ∧ ∀ s, r = some s → ∃ t, w ≤ t ∧ t ≤ w' ∧ U.Reports t s
    | .check => fun r w' => w ≤ w' ∧ (r = true → ∃ t, w ≤ t ∧ t ≤ w' ∧ wired t)
    | .sleep d => fun _ w' => w ≤ w' ∧ w + d ≤ w'
  may _ _ := True

/-- One process was up for the time `settle` within `begun` and `now`, and had the flags wanted. -/
def Settled (U : UnitHistory) (wired : Int → Prop) (settle : Int) (checks : Bool) (begun now : Int) : Prop :=
  ∃ s t, begun ≤ s ∧ s + settle ≤ t ∧ t ≤ now ∧ U.UpFrom s t ∧ (checks = true → ∃ u, s ≤ u ∧ u ≤ t ∧ wired u)

section

variable {wired : Int → Prop} {vt : VerifyTiming} {checks : Bool} {begun : Int}

theorem wp_runCheck {w : Int} : (runCheck checks).Wp (U.setting wired)
    (fun ok w' => w ≤ w' ∧ (ok = true → checks = true → ∃ u, w ≤ u ∧ u ≤ w' ∧ wired u)) w := by
  cases checks with
  | false => exact ⟨le_refl w, fun _ h => absurd h (by decide)⟩
  | true => exact ⟨trivial, fun ok w' h => ⟨h.1, fun hok _ => h.2 hok⟩⟩

/-- A turn takes no time back, and finds a kubelet healthy only if it was. -/
theorem wp_sample (hdistinct : U.Distinct) (ok : Bool) {w : Int} (hw : begun ≤ w) :
    (sample vt checks ok).Wp (U.setting wired) (fun r w' => w ≤ w' ∧ match r with
      | .healthy => U.Settled wired vt.settle checks begun w'
      | _ => True) w := by
  unfold sample
  refine Prog.wp_ask_bind.mpr ⟨trivial, fun status w₁ hstatus => ?_⟩
  obtain ⟨hw₁, hreport⟩ := hstatus
  cases status with
  | none => exact ⟨hw₁, trivial⟩
  | some first =>
    obtain ⟨s, hs, hsw, hfirst⟩ := hreport first rfl
    dsimp only
    by_cases hactive : first.activeState = lit "active" ∧ 0 < first.mainPID
    · rw [if_pos hactive]
      apply Prog.wp_seq wp_runCheck
      rintro checked w₂ ⟨hw₂, hchecked⟩
      cases checked with
      | false => exact ⟨hw₁.trans hw₂, trivial⟩
      | true =>
        refine Prog.wp_ask_bind.mpr ⟨trivial, fun _ w₃ hsleep => Prog.wp_ask_bind.mpr ⟨trivial, ?_⟩⟩
        intro status w₄ hstatus
        obtain ⟨hw₃, hslept⟩ := hsleep
        obtain ⟨hw₄, hreport'⟩ := hstatus
        have hpassed : w ≤ w₄ := by omega
        cases status with
        | none => exact ⟨hpassed, trivial⟩
        | some second =>
          obtain ⟨t, ht, htw, hsecond⟩ := hreport' second rfl
          by_cases hsame : sameProcess first second = true
          · have hup : U.UpFrom s t :=
              upFrom_of_sameProcess hdistinct (by omega) hfirst hsecond hactive.2 hsame
            have hflags : checks = true → ∃ u, s ≤ u ∧ u ≤ t ∧ wired u := by
              intro hchecks
              obtain ⟨u, hu, huw, hwired⟩ := hchecked rfl hchecks
              exact ⟨u, by omega, by omega, hwired⟩
            dsimp only
            rw [if_pos hsame]
            exact ⟨hpassed, s, t, by omega, by omega, htw, hup, hflags⟩
          · dsimp only
            rw [if_neg hsame]
            exact ⟨hpassed, trivial⟩
    · rw [if_neg hactive]
      exact ⟨hw₁, trivial⟩

/-- The induction is on the turns that are left: each takes at least `interval`, so that the deadline
passes before they are used up. -/
theorem wp_waitLoop (hdistinct : U.Distinct) (hinterval : 0 < vt.interval)
    {deadline : Int} (turns : Nat) : ∀ (last : UnitStatus) (ok : Bool) (w : Int), begun ≤ w →
      deadline ≤ w + turns * vt.interval →
      (waitLoop vt checks deadline (turns + 1) last ok).Wp (U.setting wired)
        (fun r w' => r ≠ none ∧ (r = some (.ok ()) → U.Settled wired vt.settle checks begun w')) w := by
  induction turns with
  | zero =>
    intro last ok w hw hdeadline
    unfold waitLoop
    refine Prog.wp_ask_bind.mpr ⟨trivial, fun now w₁ hnow => ?_⟩
    obtain ⟨hnow, hw₁⟩ := hnow
    have hlate : ¬ now < deadline := by
      simp only [Nat.cast_zero, zero_mul, add_zero] at hdeadline
      exact not_lt.mpr (hdeadline.trans hnow)
    dsimp only
    rw [if_neg hlate]
    exact ⟨by simp, by simp⟩
  | succ turns ih =>
    intro last ok w hw hdeadline
    unfold waitLoop
    refine Prog.wp_ask_bind.mpr ⟨trivial, fun now w₁ hnow => ?_⟩
    obtain ⟨hnow, hw₁⟩ := hnow
    by_cases hearly : now < deadline
    · rw [if_pos hearly]
      apply Prog.wp_seq (wp_sample hdistinct ok (hw.trans (hnow.trans hw₁)))
      rintro sampled w₂ ⟨hw₂, hsampled⟩
      cases sampled with
      | healthy => exact ⟨by simp, fun _ => hsampled⟩
      | broken => exact ⟨by simp, by simp⟩
      | again last ok =>
        refine Prog.wp_ask_bind.mpr ⟨trivial, fun _ w₃ hsleep => ?_⟩
        obtain ⟨hw₃, hslept⟩ := hsleep
        apply ih
        · omega
        · rw [Nat.cast_add, Nat.cast_one, add_mul, one_mul] at hdeadline
          omega
    · rw [if_neg hearly]
      exact ⟨by simp, by simp⟩

end

end UnitHistory

/-- The wait always ends. When it ends well, one process of the unit ran without a stop for the whole
settle period, and the flags that the installer looked for were seen while it ran. -/
theorem waitKubeletHealthy_settled {U : UnitHistory} (hdistinct : U.Distinct) {vt : VerifyTiming}
    (hinterval : 0 < vt.interval) (wired : Int → Prop) (checks : Bool) (begun : Int) :
    (waitKubeletHealthy vt checks).Wp (U.setting wired)
      (fun r now => r ≠ none ∧ (r = some (.ok ()) → U.Settled wired vt.settle checks begun now)) begun := by
  unfold waitKubeletHealthy
  refine Prog.wp_ask_bind.mpr ⟨trivial, fun start w hstart => ?_⟩
  obtain ⟨hstart, hw⟩ := hstart
  apply UnitHistory.wp_waitLoop hdistinct hinterval
  · exact hstart.trans hw
  · -- the turns are those that fit before the deadline, and one more
    have hturns : vt.timeout < (vt.timeout / vt.interval + 1) * vt.interval := by
      have hdiv := Int.emod_add_mul_ediv vt.timeout vt.interval
      have hmod := Int.emod_lt_of_pos vt.timeout hinterval
      rw [add_mul, one_mul, mul_comm (vt.timeout / vt.interval)]
      omega
    have hnat : vt.timeout / vt.interval ≤ ((vt.timeout / vt.interval).toNat : Int) := Int.self_le_toNat _
    have hbound : (vt.timeout / vt.interval + 1) * vt.interval ≤
        (((vt.timeout / vt.interval).toNat + 1 : Nat) : Int) * vt.interval := by
      apply mul_le_mul_of_nonneg_right _ hinterval.le
      push_cast
      omega
    omega

def steadyUnit : UnitHistory where
  starts _ := 1
  running _ := true
  pid _ := 812
  restarts _ := some 0
  starts_mono _ _ _ := le_refl 1
  running_since _ _ _ _ h := h
  restarts_count _ _ m n _ _ _ hm hn := by
    cases hm
    cases hn
    rfl

def steadyAnswers (w : Int) : (c : VerifyCall) → c.Answer × Int
  | .now => (w, w)
  | .status => (some ⟨lit "active", 812, 0⟩, w)
  | .check => (true, w)
  | .sleep d => ((), w + max d 0)

theorem waitKubeletHealthy_settled_steady :
    ((waitKubeletHealthy defaultVerifyTiming true).exec steadyAnswers 0).1 = some (.ok ()) ∧
      steadyUnit.Settled (fun _ => True) (15 * second) true 0
        ((waitKubeletHealthy defaultVerifyTiming true).exec steadyAnswers 0).2 := by
  have hresult : ((waitKubeletHealthy defaultVerifyTiming true).exec steadyAnswers 0).1 = some (.ok ()) := by
    decide
  refine ⟨hresult, ?_⟩
  have hserve : ∀ w c, (steadyUnit.setting fun _ => True).sem w c (steadyAnswers w c).1 (steadyAnswers w c).2 := by
    intro w c
    cases c with
    | now => exact ⟨le_refl w, le_refl w⟩
    | status =>
      refine ⟨le_refl w, fun s hs => ⟨w, le_refl w, le_refl w, ?_⟩⟩
      cases hs
      exact ⟨rfl, rfl⟩
    | check => exact ⟨le_refl w, fun _ => ⟨w, le_refl w, le_refl w, trivial⟩⟩
    | sleep d =>
      constructor
      · exact le_add_of_nonneg_right (le_max_right d 0)
      · exact add_le_add_right (le_max_left d 0) w
  have hwait := Prog.wp_exec steadyAnswers hserve _ _ _
    (@waitKubeletHealthy_settled steadyUnit (.inl fun _ => rfl) defaultVerifyTiming (by decide) (fun _ => True)
      true 0)
  exact hwait.2 hresult

end HarborBridge.Installer

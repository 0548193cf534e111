import Mathlib.Algebra.Order.Ring.Rat
import Mathlib.Tactic.Linarith
import HarborBridge.Lib.TokenBucket
import HarborBridge.Lib.GoStrings
import HarborBridge.Lib.Rfc3339

/-!
# The limiter of the credential endpoint

Package dataplane, ratelimit.go, and the settings that main reads for it. A limiter of
golang.org/x/time/rate is an exact token bucket here: rates are rationals and nothing is
rounded.
-/

namespace HarborBridge.RateLimit

open GoStrings Rfc3339 TokenBucket

/-! ## The settings -/

/-- A float64: a number, or one of the values that `strconv.ParseFloat` also reads. -/
inductive Float64 where
  | finite (v : ℚ)
  | inf (negative : Bool)
  | nan
  deriving DecidableEq

namespace Float64

-- Every comparison with NaN is false.
def negative : Float64 → Bool
  | finite v => v < 0
  | inf sign => sign
  | nan => false

def nonpositive : Float64 → Bool
  | finite v => v ≤ 0
  | inf sign => sign
  | nan => false

def Positive : Float64 → Prop
  | finite v => 0 < v
  | inf sign => sign = false
  | nan => False

/-- At this many tokens per second, `n` tokens have come after `elapsed`. -/
def Fills (limit : Float64) (n : Int) (elapsed : Int) : Prop :=
  match limit with
  | finite v => (n : ℚ) ≤ v * (elapsed / second)
  | _ => True

end Float64

inductive SettingError where
  | rateLimit (raw : GoString)
  | rateLimitBurst (raw : GoString)
  deriving DecidableEq

def envRateLimit : GoString := lit "BRIDGE_RATE_LIMIT_PER_SOURCE"

def envRateLimitBurst : GoString := lit "BRIDGE_RATE_LIMIT_BURST"

def defaultRateLimit : ℚ := 20

def defaultRateBurst : Int := 100

variable (parseFloat : GoString → Option Float64) (getenv : GoString → GoString)

def perSourceFromEnv : Except SettingError Float64 :=
  let raw := getenv envRateLimit
  if raw = [] then .ok (.finite defaultRateLimit)
  else match parseFloat raw with
    | none => .error (.rateLimit raw)
    | some v => if v.negative then .error (.rateLimit raw) else .ok v

def burstFromEnv : Except SettingError Int :=
  let raw := getenv envRateLimitBurst
  if raw = [] then .ok defaultRateBurst
  else match parseInt raw with
    | none => .error (.rateLimitBurst raw)
    | some v => if v < 1 then .error (.rateLimitBurst raw) else .ok v

def rateLimitFromEnv : Except SettingError (Float64 × Int) := do
  let perSource ← perSourceFromEnv parseFloat getenv
  let burst ← burstFromEnv getenv
  .ok (perSource, burst)

variable {parseFloat getenv}

theorem burstFromEnv_pos {burst : Int} (h : burstFromEnv getenv = .ok burst) : 1 ≤ burst := by
  dsimp only [burstFromEnv] at h
  split_ifs at h with hraw
  · cases h
    decide
  · split at h
    · cases h
    · split_ifs at h with hv
      cases h
      omega

theorem rateLimitFromEnv_burst {perSource : Float64} {burst : Int}
    (h : rateLimitFromEnv parseFloat getenv = .ok (perSource, burst)) : 1 ≤ burst := by
  unfold rateLimitFromEnv at h
  cases hrate : perSourceFromEnv parseFloat getenv with
  | error e => rw [hrate] at h; cases h
  | ok v =>
    cases hburst : burstFromEnv getenv with
    | error e => rw [hrate, hburst] at h; cases h
    | ok b =>
      rw [hrate, hburst] at h
      cases h
      exact burstFromEnv_pos hburst

/-! ## The limiter -/

def sourceIdleTTL : Int := 10 * minute

def pruneInterval : Int := minute

/-- `rate.NewLimiter`. A rate that is no finite number never makes a token level fall below
one: comparisons of NaN with it are false. -/
def rateShape (limit : Float64) (burst : Int) : Shape ℚ where
  rate := match limit with
    | .finite v => some (v / second)
    | _ => none
  burst := burst

structure SourceBucket where
  limiter : Bucket ℚ
  seen : Int

structure SourceLimiter where
  limit : Float64
  burst : Int
  sources : GoString → Option SourceBucket
  lastPrune : Int

def newSourceLimiter (perSecond : Float64) (burst : Int) : Option SourceLimiter :=
  if perSecond.nonpositive then none
  else some {
    limit := perSecond
    burst := if burst < 1 then 1 else burst
    sources := fun _ => none
    lastPrune := 0 }

namespace SourceLimiter

def shape (s : SourceLimiter) : Shape ℚ := rateShape s.limit s.burst

def prune (s : SourceLimiter) (now : Int) : SourceLimiter :=
  if pruneInterval < timeSub now s.lastPrune then
    { s with
      sources := fun k => (s.sources k).filter fun b => !decide (sourceIdleTTL < timeSub now b.seen)
      lastPrune := now }
  else s

def bucketOf (s : SourceLimiter) (source : GoString) : Bucket ℚ :=
  match s.sources source with
  | none => s.shape.full
  | some b => b.limiter

def allow (s : SourceLimiter) (source : GoString) (now : Int) : Bool × SourceLimiter :=
  let s := s.prune now
  let (ok, limiter) := s.shape.take (s.bucketOf source) now
  (ok, { s with sources := Function.update s.sources source (some ⟨limiter, now⟩) })

end SourceLimiter

structure Call where
  source : GoString
  now : Int

/-- `Allow`, which a nil limiter answers too. -/
def allow (s : Option SourceLimiter) (call : Call) : Bool × Option SourceLimiter :=
  match s with
  | none => (true, none)
  | some s => ((s.allow call.source call.now).1, some (s.allow call.source call.now).2)

def answers : Option SourceLimiter → List Call → List Bool
  | _, [] => []
  | s, call :: calls => (allow s call).1 :: answers (allow s call).2 calls

/-! ## One bucket for each source -/

section Own

variable (shape : Shape ℚ)

def ownBucket (calls : List Call) (source : GoString) : Bucket ℚ :=
  (calls.filter (·.source = source)).foldl (fun b call => (shape.take b call.now).2) shape.full

def ownAnswers (before : List Call) : List Call → List Bool
  | [] => []
  | call :: calls =>
    (shape.take (ownBucket shape before call.source) call.now).1
      :: ownAnswers (before ++ [call]) calls

theorem ownAnswers_cons (before : List Call) (call : Call) (calls : List Call) :
    ownAnswers shape before (call :: calls) =
      (shape.take (ownBucket shape before call.source) call.now).1
        :: ownAnswers shape (before ++ [call]) calls := rfl

theorem ownBucket_snoc (before : List Call) (call : Call) (source : GoString) :
    ownBucket shape (before ++ [call]) source =
      if call.source = source then (shape.take (ownBucket shape before source) call.now).2
      else ownBucket shape before source := by
  unfold ownBucket
  by_cases h : call.source = source <;> simp [List.filter_append, h]

end Own

/-- The limiter's buckets hold what the sources' own buckets hold, and a source without a
bucket is one whose own bucket is full. -/
structure Tracks (s : SourceLimiter) (before : List Call) (now : Int) : Prop where
  kept : ∀ {source b}, s.sources source = some b →
    s.shape.Alike now b.limiter (ownBucket s.shape before source) ∧ b.seen ≤ now ∧
      0 ≤ (ownBucket s.shape before source).tokens ∧
      (ownBucket s.shape before source).last ≤ b.seen
  dropped : ∀ {source}, s.sources source = none →
    s.shape.Alike now s.shape.full (ownBucket s.shape before source)

variable {s : SourceLimiter} {before : List Call} {now : Int}

theorem Tracks.later (h : Tracks s before now) {t : Int} (ht : now ≤ t) : Tracks s before t where
  kept hb := by
    obtain ⟨halike, hseen, hsound⟩ := h.kept hb
    exact ⟨halike.later ht, hseen.trans ht, hsound⟩
  dropped hb := (h.dropped hb).later ht

theorem Tracks.bucketOf (h : Tracks s before now) (source : GoString) :
    s.shape.Alike now (s.bucketOf source) (ownBucket s.shape before source) := by
  unfold SourceLimiter.bucketOf
  cases hb : s.sources source with
  | none => exact h.dropped hb
  | some b => exact (h.kept hb).1

/-- The limiter as `newSourceLimiter` makes it, with a rate that fills a bucket while it is
idle. Times are whole nanoseconds, so a bucket that goes was idle for one more than the limit
at least. -/
structure Ample (s : SourceLimiter) : Prop where
  burst : 1 ≤ s.burst
  positive : s.limit.Positive
  fills : s.limit.Fills s.burst (sourceIdleTTL + 1)

theorem Ample.rate (h : Ample s) {r : ℚ} (hr : s.shape.rate = some r) :
    0 ≤ r ∧ s.shape.burst ≤ r * ((sourceIdleTTL + 1 : Int) : ℚ) := by
  obtain ⟨-, hpos, hfills⟩ := h
  unfold SourceLimiter.shape rateShape at *
  cases hl : s.limit with
  | inf sign => rw [hl] at hr; cases hr
  | nan => rw [hl] at hr; cases hr
  | finite v =>
    rw [hl] at hr hpos hfills
    have hr' : v / second = r := by simpa using hr
    have hpos' : 0 < v := hpos
    have hfills' : (s.burst : ℚ) ≤ v * ((sourceIdleTTL + 1 : Int) / second) := hfills
    subst hr'
    refine ⟨div_nonneg hpos'.le (by norm_num [second]), ?_⟩
    calc (s.burst : ℚ) ≤ v * ((sourceIdleTTL + 1 : Int) / second) := hfills'
      _ = v / second * ((sourceIdleTTL + 1 : Int) : ℚ) := by ring

theorem Ample.gains (h : Ample s) : s.shape.Gains := fun _ hr => (h.rate hr).1

theorem Ample.full_of_idle (h : Ample s) {b : Bucket ℚ} {since t : Int} (htokens : 0 ≤ b.tokens)
    (hlast : b.last ≤ since) (hidle : sourceIdleTTL < t - since) :
    s.shape.Alike t s.shape.full b := by
  intro u hu
  rw [Shape.level_full h.gains, Shape.level_of_idle htokens hlast]
  intro r hr
  obtain ⟨hr0, hfill⟩ := h.rate hr
  refine ⟨hr0, hfill.trans (mul_le_mul_of_nonneg_left ?_ hr0)⟩
  exact_mod_cast (by omega : sourceIdleTTL + 1 ≤ u - since)

theorem prune_shape (s : SourceLimiter) (now : Int) : (s.prune now).shape = s.shape := by
  unfold SourceLimiter.prune SourceLimiter.shape
  split_ifs <;> rfl

theorem Ample.prune (h : Ample s) (now : Int) : Ample (s.prune now) := by
  obtain ⟨hburst, hpos, hfills⟩ := h
  unfold SourceLimiter.prune
  split_ifs
  · exact ⟨hburst, hpos, hfills⟩
  · exact ⟨hburst, hpos, hfills⟩

theorem Tracks.prune (h : Tracks s before now) (hs : Ample s) : Tracks (s.prune now) before now := by
  have hshape := prune_shape s now
  refine ⟨fun {source b} hb => ?_, fun {source} hb => ?_⟩
  · rw [hshape]
    apply h.kept
    unfold SourceLimiter.prune at hb
    split_ifs at hb
    · exact (Option.filter_eq_some_iff.mp hb).1
    · exact hb
  · rw [hshape]
    unfold SourceLimiter.prune at hb
    split_ifs at hb
    · cases hold : s.sources source with
      | none => exact h.dropped hold
      | some b =>
        -- The bucket goes now: it was idle for so long that the own bucket is full.
        obtain ⟨-, hseen, htokens, hlast⟩ := h.kept hold
        have hidle : sourceIdleTTL < timeSub now b.seen := by
          simpa [hold, Option.filter] using hb
        rw [lt_timeSub (by decide) (by decide)] at hidle
        exact hs.full_of_idle htokens hlast hidle
    · exact h.dropped hb

/-- One call: the limiter decides as the source's own bucket does. -/
theorem Tracks.allow (h : Tracks s before now) (hs : Ample s) (source : GoString) :
    (s.allow source now).1 = (s.shape.take (ownBucket s.shape before source) now).1 ∧
      Tracks (s.allow source now).2 (before ++ [⟨source, now⟩]) now := by
  have hp := h.prune hs
  have hshape := prune_shape s now
  have hbucket := hp.bucketOf source
  rw [hshape] at hbucket
  obtain ⟨hok, hafter⟩ := hbucket.take
  have hsound : 0 ≤ (s.shape.take (ownBucket s.shape before source) now).2.tokens ∧
      (s.shape.take (ownBucket s.shape before source) now).2.last ≤ now := by
    apply Shape.take_sound
    cases hb : (s.prune now).sources source with
    | none =>
      left
      have hfull := hp.dropped hb now le_rfl
      rw [hshape, Shape.level_full hs.gains] at hfull
      rw [← hfull]
      exact (by exact_mod_cast hs.burst : (1 : ℚ) ≤ (s.burst : ℚ))
    | some b =>
      right
      obtain ⟨-, hseen, htokens, hlast⟩ := hp.kept hb
      rw [hshape] at htokens hlast
      exact ⟨htokens, hlast.trans hseen⟩
  have hshape' : (s.allow source now).2.shape = s.shape := hshape
  refine ⟨by unfold SourceLimiter.allow; simpa only [hshape] using hok,
    fun {k b} hb => ?_, fun {k} hb => ?_⟩
  · rw [hshape', ownBucket_snoc]
    by_cases hk : source = k
    · subst hk
      have hb' : b = ⟨(s.shape.take ((s.prune now).bucketOf source) now).2, now⟩ := by
        simpa [SourceLimiter.allow, hshape, eq_comm] using hb
      subst hb'
      rw [if_pos rfl]
      exact ⟨hafter, le_rfl, hsound⟩
    · rw [if_neg hk]
      have hb' : (s.prune now).sources k = some b := by
        simpa [SourceLimiter.allow, Function.update_of_ne (Ne.symm hk)] using hb
      simpa only [hshape] using hp.kept hb'
  · by_cases hk : source = k
    · subst hk
      simp [SourceLimiter.allow] at hb
    · rw [hshape', ownBucket_snoc, if_neg hk]
      have hb' : (s.prune now).sources k = none := by
        simpa [SourceLimiter.allow, Function.update_of_ne (Ne.symm hk)] using hb
      simpa only [hshape] using hp.dropped hb'

theorem Ample.allow (h : Ample s) (source : GoString) (now : Int) : Ample (s.allow source now).2 := by
  obtain ⟨hburst, hpos, hfills⟩ := h.prune now
  exact ⟨hburst, hpos, hfills⟩

theorem answers_eq_ownAnswers (calls : List Call) :
    ∀ {s : SourceLimiter} {before : List Call} {now : Int}, Ample s → Tracks s before now →
      (∀ call ∈ calls, now ≤ call.now) → calls.Pairwise (fun a b => a.now ≤ b.now) →
      answers (some s) calls = ownAnswers s.shape before calls := by
  induction calls with
  | nil => intros; rfl
  | cons call calls ih =>
    intro s before now hs h hnow horder
    obtain ⟨hfirst, hrest⟩ := List.pairwise_cons.mp horder
    have hnow' := h.later (hnow call List.mem_cons_self)
    obtain ⟨hok, hafter⟩ := hnow'.allow hs call.source
    have hshape : (s.allow call.source call.now).2.shape = s.shape := prune_shape s call.now
    have hcalls := ih (hs.allow call.source call.now) hafter hfirst hrest
    rw [hshape] at hcalls
    unfold answers
    rw [ownAnswers_cons, show (RateLimit.allow (some s) call).1 = (s.allow call.source call.now).1 from rfl, hok]
    exact congrArg _ hcalls

def answersTo (source : GoString) (calls : List Call) (answers : List Bool) : List Bool :=
  ((calls.zip answers).filter (·.1.source = source)).map (·.2)

theorem answersTo_ownAnswers (shape : Shape ℚ) (source : GoString) (calls : List Call) :
    ∀ before, answersTo source calls (ownAnswers shape before calls) =
      ownAnswers shape (before.filter (·.source = source)) (calls.filter (·.source = source)) := by
  induction calls with
  | nil => intro; rfl
  | cons call calls ih =>
    intro before
    have hrest := ih (before ++ [call])
    by_cases h : call.source = source
    · subst h
      have hown : ownBucket shape (before.filter (·.source = call.source)) call.source =
          ownBucket shape before call.source := by
        simp [ownBucket, List.filter_filter]
      rw [List.filter_append, List.filter_singleton] at hrest
      rw [List.filter_cons_of_pos (by simp), ownAnswers_cons, ownAnswers_cons, hown]
      simpa [answersTo] using hrest
    · rw [List.filter_append, List.filter_singleton] at hrest
      rw [List.filter_cons_of_neg (by simpa using h), ownAnswers_cons]
      simpa [answersTo, h] using hrest

theorem newSourceLimiter_eq {perSecond : Float64} {burst : Int} (hpos : perSecond.Positive)
    (hburst : 1 ≤ burst) :
    newSourceLimiter perSecond burst = some ⟨perSecond, burst, fun _ => none, 0⟩ := by
  have hlimit : perSecond.nonpositive = false := by
    cases perSecond with
    | finite v =>
      have hv : 0 < v := hpos
      simpa [Float64.nonpositive] using hv
    | inf sign => exact hpos
    | nan => exact hpos.elim
  simp [newSourceLimiter, hlimit, show ¬ burst < 1 by omega]

theorem newSourceLimiter_tracks (perSecond : Float64) (burst : Int) (now : Int) :
    Tracks ⟨perSecond, burst, fun _ => none, 0⟩ [] now where
  kept hb := by cases hb
  dropped _ := fun _ _ => rfl

theorem newSourceLimiter_answers {perSecond : Float64} {burst : Int} (hpos : perSecond.Positive)
    (hburst : 1 ≤ burst) (hfills : perSecond.Fills burst (sourceIdleTTL + 1)) {calls : List Call}
    (horder : calls.Pairwise fun a b => a.now ≤ b.now) :
    answers (newSourceLimiter perSecond burst) calls =
      ownAnswers (rateShape perSecond burst) [] calls := by
  rw [newSourceLimiter_eq hpos hburst]
  cases calls with
  | nil => rfl
  | cons call calls =>
    have hfirst : ∀ c ∈ call :: calls, call.now ≤ c.now := by
      intro c hc
      rcases List.mem_cons.mp hc with rfl | hc
      · exact le_rfl
      · exact (List.pairwise_cons.mp horder).1 c hc
    exact answers_eq_ownAnswers _ ⟨hburst, hpos, hfills⟩
      (newSourceLimiter_tracks perSecond burst call.now) hfirst horder

/-! ## A source that comes back

The run that tells a slow rate apart: one source spends its burst, stays away until its bucket
goes, and asks for the burst again. -/

section Back

variable (source : GoString)

def callsAt (t : Int) (n : Nat) : List Call := List.replicate n ⟨source, t⟩

theorem ownAnswers_source (shape : Shape ℚ) (ts : List Int) : ∀ before : List Call,
    ownAnswers shape before (ts.map (⟨source, ·⟩)) = shape.run (ownBucket shape before source) ts := by
  induction ts with
  | nil => intro; rfl
  | cons t ts ih =>
    intro before
    have hrest := ih (before ++ [⟨source, t⟩])
    rw [ownBucket_snoc, if_pos rfl] at hrest
    rw [List.map_cons, ownAnswers_cons, hrest]
    rfl

def SourceLimiter.after (s : SourceLimiter) (calls : List Call) : SourceLimiter :=
  calls.foldl (fun s call => (s.allow call.source call.now).2) s

theorem answers_append (calls more : List Call) : ∀ s : SourceLimiter,
    answers (some s) (calls ++ more) = answers (some s) calls ++ answers (some (s.after calls)) more := by
  induction calls with
  | nil => intro; rfl
  | cons call calls ih =>
    intro s
    exact congrArg _ (ih (s.allow call.source call.now).2)

variable {source} {t : Int}

theorem prune_now (h : s.lastPrune = t) : s.prune t = s := by
  have hnow : ¬ pruneInterval < timeSub t t := by
    rw [lt_timeSub (by decide) (by decide), sub_self]
    decide
  rw [SourceLimiter.prune, h, if_neg hnow]

/-- Nothing is pruned between calls at one moment, and they are answered from one bucket. -/
theorem answers_callsAt (n : Nat) : ∀ {s : SourceLimiter}, s.lastPrune = t →
    answers (some s) (callsAt source t n) =
      s.shape.run (s.bucketOf source) (List.replicate n t) := by
  induction n with
  | zero => intros; rfl
  | succ n ih =>
    intro s h
    have hpruned := prune_now h
    have hfirst : (s.allow source t).1 = (s.shape.take (s.bucketOf source) t).1 := by
      simp [SourceLimiter.allow, hpruned]
    have hbucket : (s.allow source t).2.bucketOf source = (s.shape.take (s.bucketOf source) t).2 := by
      simp [SourceLimiter.allow, hpruned, SourceLimiter.bucketOf]
    have hshape : (s.allow source t).2.shape = s.shape := prune_shape s t
    have hlast : (s.allow source t).2.lastPrune = t := by
      simpa [SourceLimiter.allow, hpruned] using h
    change (s.allow source t).1 :: answers (some (s.allow source t).2) (callsAt source t n) = _
    rw [ih hlast, hbucket, hshape, hfirst]
    rfl

structure Visited (source : GoString) (t : Int) (s s' : SourceLimiter) : Prop where
  shape : s'.shape = s.shape
  lastPrune : s'.lastPrune = t
  seen : ∀ {b}, s'.sources source = some b → b.seen = t

theorem visited_callsAt (n : Nat) : ∀ {s : SourceLimiter}, s.lastPrune = t →
    (∀ {b}, s.sources source = some b → b.seen = t) →
    Visited source t s (s.after (callsAt source t n)) := by
  induction n with
  | zero => exact fun h hseen => ⟨rfl, h, hseen⟩
  | succ n ih =>
    intro s h hseen
    have hpruned := prune_now h
    obtain ⟨hshape, hlast, hseen'⟩ := ih (s := (s.allow source t).2)
      (by simpa [SourceLimiter.allow, hpruned] using h)
      (fun hb => by simp [SourceLimiter.allow] at hb; rw [← hb])
    exact ⟨hshape.trans (prune_shape s t), hlast, hseen'⟩

/-- A source that was away for longer than its bucket is kept finds a full one. -/
theorem bucketOf_prune {s s' : SourceLimiter} (h : Visited source t s s') :
    (s'.prune (t + (sourceIdleTTL + 1))).bucketOf source = s.shape.full ∧
      (s'.prune (t + (sourceIdleTTL + 1))).lastPrune = t + (sourceIdleTTL + 1) := by
  have hback (since : Int) (hsince : since = t) (d : Int) (hd : d = pruneInterval ∨ d = sourceIdleTTL) :
      d < timeSub (t + (sourceIdleTTL + 1)) since := by
    subst hsince
    rcases hd with rfl | rfl
    all_goals
      rw [lt_timeSub (by decide) (by decide), add_sub_cancel_left]
      decide
  unfold SourceLimiter.prune
  rw [if_pos (hback _ h.lastPrune _ (.inl rfl))]
  refine ⟨?_, rfl⟩
  have hgone : (s'.sources source).filter (fun b =>
      !decide (sourceIdleTTL < timeSub (t + (sourceIdleTTL + 1)) b.seen)) = none := by
    cases hb : s'.sources source with
    | none => rfl
    | some b => simp [Option.filter, hback _ (h.seen hb) _ (.inr rfl)]
  simp only [SourceLimiter.bucketOf, hgone]
  exact congrArg Shape.full h.shape

theorem answers_prune (s : SourceLimiter) (n : Nat) :
    answers (some (s.prune t)) (callsAt source t n) = answers (some s) (callsAt source t n) := by
  have hagain : (s.prune t).prune t = s.prune t := by
    by_cases hdue : pruneInterval < timeSub t s.lastPrune
    · apply prune_now
      simp [SourceLimiter.prune, hdue]
    · have hkept : s.prune t = s := by rw [SourceLimiter.prune, if_neg hdue]
      rw [hkept, hkept]
  have hallow : (s.prune t).allow source t = s.allow source t := by
    unfold SourceLimiter.allow
    rw [hagain]
  cases n with
  | zero => rfl
  | succ n =>
    change ((s.prune t).allow source t).1 :: answers (some ((s.prune t).allow source t).2) _ = _
    rw [hallow]
    rfl

end Back

/-- One source spends the burst, and again after its bucket went. -/
def twice (burst : Nat) : List Call :=
  callsAt (lit "10.0.0.1") 0 burst ++ callsAt (lit "10.0.0.1") (sourceIdleTTL + 1) burst

theorem twice_ordered (n : Nat) : (twice n).Pairwise fun a b => a.now ≤ b.now := by
  have hsame (t : Int) : (callsAt (lit "10.0.0.1") t n).Pairwise fun a b => a.now ≤ b.now := by
    apply List.pairwise_replicate.mpr
    exact .inr le_rfl
  refine List.pairwise_append.mpr ⟨hsame 0, hsame _, fun a ha b hb => ?_⟩
  rw [List.eq_of_mem_replicate ha, List.eq_of_mem_replicate hb]
  decide

/-- The limiter allows all of that. -/
theorem answers_twice {perSecond : Float64} {burst : Int} {r : ℚ} (hburst : 1 ≤ burst)
    (hr : (rateShape perSecond burst).rate = some r) (hgains : (rateShape perSecond burst).Gains) :
    answers (some ⟨perSecond, burst, fun _ => none, 0⟩) (twice burst.toNat) =
      List.replicate burst.toNat true ++ List.replicate burst.toNat true := by
  have hfull (t : Int) : (rateShape perSecond burst).run (rateShape perSecond burst).full
      (List.replicate burst.toNat t) = List.replicate burst.toNat true := by
    have hlevel : (rateShape perSecond burst).level (rateShape perSecond burst).full t = (burst : ℚ) :=
      Shape.level_full hgains t
    rw [Shape.run_replicate hr _ (by rw [hlevel]; exact_mod_cast (by omega : 0 ≤ burst)), hlevel]
    exact_mod_cast (by omega : (burst.toNat : Int) ≤ burst)
  have hvisited : Visited (lit "10.0.0.1") 0 (⟨perSecond, burst, fun _ => none, 0⟩ : SourceLimiter) _ :=
    visited_callsAt burst.toNat rfl (fun hb => by cases hb)
  obtain ⟨hbucket, hlast⟩ := bucketOf_prune hvisited
  rw [zero_add] at hbucket hlast
  rw [twice, answers_append, answers_callsAt _ rfl, ← answers_prune, answers_callsAt _ hlast, hbucket,
    prune_shape, hvisited.shape]
  exact congrArg₂ _ (hfull 0) (hfull _)

/-- The source's own bucket allows all of that only if it has filled up in between. -/
theorem ownAnswers_twice {shape : Shape ℚ} {r : ℚ} {n : Nat} (hr : shape.rate = some r) (hr0 : 0 ≤ r)
    (hn : shape.burst = (n + 1 : Nat))
    (h : ownAnswers shape [] (twice (n + 1)) =
      List.replicate (n + 1) true ++ List.replicate (n + 1) true) :
    shape.burst ≤ r * ((sourceIdleTTL + 1 : Int) : ℚ) := by
  have hlevel : shape.level shape.full 0 = shape.burst :=
    Shape.level_full (fun r' hr' => by rw [hr] at hr'; exact Option.some.inj hr' ▸ hr0) 0
  have hcalls : twice (n + 1) = (List.replicate (n + 1) 0 ++
      List.replicate (n + 1) (sourceIdleTTL + 1)).map (⟨lit "10.0.0.1", ·⟩) := by
    simp [twice, callsAt]
  have hspent : shape.after shape.full (List.replicate (n + 1) 0) = ⟨0, 0⟩ := by
    rw [Shape.after_replicate hr n (by rw [hlevel, hn]), hlevel, hn, sub_self]
  have hback : shape.level ⟨0, 0⟩ (sourceIdleTTL + 1) =
      min shape.burst (r * ((sourceIdleTTL + 1 : Int) : ℚ)) := by
    have helapsed : sourceIdleTTL + 1 - min 0 (sourceIdleTTL + 1) = sourceIdleTTL + 1 := by decide
    simp only [Shape.level, hr, helapsed, zero_add]
  have hnonneg : 0 ≤ shape.level ⟨0, 0⟩ (sourceIdleTTL + 1) := by
    rw [hback, hn]
    exact le_min (Nat.cast_nonneg _) (mul_nonneg hr0 (by norm_num [sourceIdleTTL, minute, second]))
  rw [hcalls, ownAnswers_source, show ownBucket shape [] (lit "10.0.0.1") = shape.full from rfl,
    Shape.run_append, hspent] at h
  have hsecond := (List.append_inj' h (by simp)).2
  rw [Shape.run_replicate hr _ hnonneg, hback, ← hn] at hsecond
  exact (le_min_iff.mp hsecond).2

theorem fills_of_answers {perSecond : Float64} {burst : Int} (hpos : perSecond.Positive)
    (hburst : 1 ≤ burst)
    (h : ∀ calls : List Call, calls.Pairwise (fun a b => a.now ≤ b.now) →
      answers (newSourceLimiter perSecond burst) calls =
        ownAnswers (rateShape perSecond burst) [] calls) :
    perSecond.Fills burst (sourceIdleTTL + 1) := by
  cases perSecond with
  | inf sign => trivial
  | nan => trivial
  | finite v =>
    have hv : (0 : ℚ) ≤ v / second := div_nonneg (le_of_lt hpos) (by norm_num [second])
    have hrate : (rateShape (.finite v) burst).rate = some (v / second) := rfl
    have hgains : (rateShape (.finite v) burst).Gains := fun r hr => Option.some.inj hr ▸ hv
    obtain ⟨n, hn⟩ : ∃ n : Nat, burst.toNat = n + 1 := ⟨burst.toNat - 1, by omega⟩
    have hall := h _ (twice_ordered burst.toNat)
    rw [newSourceLimiter_eq hpos hburst, answers_twice hburst hrate hgains, hn] at hall
    have hshape : (rateShape (.finite v) burst).burst = (n + 1 : Nat) := by
      have hcast : burst = ((n + 1 : Nat) : Int) := by omega
      simp [rateShape, hcast]
    have hfills := ownAnswers_twice hrate hv hshape hall.symm
    calc (burst : ℚ) ≤ v / second * ((sourceIdleTTL + 1 : Int) : ℚ) := hfills
      _ = v * ((sourceIdleTTL + 1 : Int) / second) := by ring

/-- The limiter answers every call as one bucket for each source would, and a source's calls
as if there were no others, exactly if the rate fills a bucket before an idle one goes. -/
theorem answers_of_independent_buckets (parseFloat : GoString → Option Float64)
    (getenv : GoString → GoString) (perSecond : Float64) (burst : Int)
    (henv : rateLimitFromEnv parseFloat getenv = .ok (perSecond, burst))
    (hpos : perSecond.Positive) :
    (∀ calls : List Call, calls.Pairwise (fun a b => a.now ≤ b.now) →
      let given := answers (newSourceLimiter perSecond burst)
      given calls = ownAnswers (rateShape perSecond burst) [] calls ∧
        ∀ source, answersTo source calls (given calls) =
          given (calls.filter (·.source = source))) ↔
      perSecond.Fills burst (sourceIdleTTL + 1) := by
  have hburst := rateLimitFromEnv_burst henv
  constructor
  · intro h
    exact fills_of_answers hpos hburst fun calls horder => (h calls horder).1
  · intro hfills calls horder given
    have hall := newSourceLimiter_answers hpos hburst hfills horder
    refine ⟨hall, fun source => ?_⟩
    have halone := newSourceLimiter_answers hpos hburst hfills
      (horder.filter fun c => decide (c.source = source))
    exact (congrArg _ hall).trans ((answersTo_ownAnswers _ source calls []).trans halone.symm)

/-- The settings of a bridge that sets neither. -/
theorem answers_of_independent_buckets_default :
    rateLimitFromEnv (fun _ => none) (fun _ => []) = .ok (.finite 20, 100) ∧
      answers (newSourceLimiter (.finite 20) 100) [⟨lit "10.0.0.1", 0⟩, ⟨lit "10.0.0.2", second⟩] =
        ownAnswers (rateShape (.finite 20) 100) []
          [⟨lit "10.0.0.1", 0⟩, ⟨lit "10.0.0.2", second⟩] :=
  ⟨by decide +kernel, ((answers_of_independent_buckets (fun _ => none) (fun _ => []) (.finite 20) 100
    (by decide +kernel) (by norm_num [Float64.Positive])).mpr
    (by norm_num [Float64.Fills, sourceIdleTTL, minute, second])
    [⟨lit "10.0.0.1", 0⟩, ⟨lit "10.0.0.2", second⟩] (by simp [second])).1⟩

/-- A source that has spent its budget gets a new one once its bucket is dropped, however
slowly the budget should come back: with one request in 1000 s, the one after 601 s. -/
theorem idle_source_regains_burst :
    rateLimitFromEnv (fun raw => if raw = lit "0.001" then some (.finite (1 / 1000)) else none)
        (fun k => if k = envRateLimit then lit "0.001" else lit "1") = .ok (.finite (1 / 1000), 1) ∧
      answers (newSourceLimiter (.finite (1 / 1000)) 1)
        [⟨lit "10.0.0.1", 0⟩, ⟨lit "10.0.0.1", 601 * second⟩] = [true, true] ∧
      ownAnswers (rateShape (.finite (1 / 1000)) 1) []
        [⟨lit "10.0.0.1", 0⟩, ⟨lit "10.0.0.1", 601 * second⟩] = [true, false] := by
  decide +kernel

end HarborBridge.RateLimit

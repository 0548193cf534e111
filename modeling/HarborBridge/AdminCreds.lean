import Mathlib.Data.List.Infix
import Mathlib.Data.List.Nodup
import HarborBridge.Lib.GoStrings
import HarborBridge.Lib.Program

/-!
# The admin credentials

Package controlplane, admincreds.go: the bridge reads Harbor's admin credentials from a
Secret volume while kubelet may replace its contents. A call of the program is one file
operation; kubelet acts between any two of them.
-/

namespace HarborBridge.AdminCreds

open GoStrings Interaction Prog

/-! ## The reader -/

inductive LinkError where
  | notExist
  | other

/-- os.Readlink of a link, and os.ReadFile of a file in a directory. -/
inductive FileCall where
  | readlink (link : GoString)
  | readFile (dir key : GoString)

def FileCall.Answer : FileCall → Type
  | readlink _ => Except LinkError GoString
  | readFile _ _ => Option GoString

abbrev FileProg := Prog FileCall FileCall.Answer

inductive ReadError where
  | resolve (link : GoString)
  | read (dir key : GoString)
  | empty (dir key : GoString)

structure Credentials where
  username : GoString
  password : GoString

def kubeletDataDir : GoString := lit "..data"

def adminCredsReadAttempts : Nat := 5

def adminUsernameKey : GoString := lit "username"

def adminPasswordKey : GoString := lit "password"

/-- The value in a file: its text without the newlines at its end. -/
def secretValue (data : GoString) : GoString := trimRight data [13, 10]

def readFile (dir key : GoString) : FileProg (Option GoString) := ask (FileCall.readFile dir key)

def readlink (link : GoString) : FileProg (Except LinkError GoString) := ask (FileCall.readlink link)

def accepted (dir key : GoString) : Option GoString → Except ReadError GoString
  | none => .error (.read dir key)
  | some data => if secretValue data = [] then .error (.empty dir key) else .ok (secretValue data)

def readSecretFile (dir key : GoString) : FileProg (Except ReadError GoString) := do
  let data ← readFile dir key
  pure (accepted dir key data)

section Reader

variable (join : GoString → GoString → GoString) (dir : GoString)

/-- Where a target of the link leads. -/
def targetPath (target : GoString) : GoString :=
  if hasPrefix target [47] then target else join dir target

def resolveDataDir : FileProg (Except ReadError (GoString × GoString)) := do
  match ← readlink (join dir kubeletDataDir) with
  | .ok target => pure (.ok (targetPath join dir target, targetPath join dir target))
  | .error .notExist => pure (.ok (dir, []))
  | .error .other => pure (.error (.resolve (join dir kubeletDataDir)))

def readAdminCredsFrom (base : GoString) : FileProg (Except ReadError Credentials) := do
  match ← readSecretFile base adminUsernameKey with
  | .error err => pure (.error err)
  | .ok username =>
    match ← readSecretFile base adminPasswordKey with
    | .error err => pure (.error err)
    | .ok password => pure (.ok ⟨username, password⟩)

/-- After an error on the files of `generation`: whether ..data still leads there. -/
def unchanged (generation : GoString) : FileProg Bool := do
  match ← resolveDataDir join dir with
  | .ok (_, now) => pure (now == generation)
  | .error _ => pure false

/-- The loop, with the number of attempts left and the error of the last one. -/
def readAttempts : Nat → Option ReadError → FileProg (Except (Option ReadError) Credentials)
  | 0, err => pure (.error err)
  | n + 1, _ => do
    match ← resolveDataDir join dir with
    | .error err => readAttempts n (some err)
    | .ok (base, generation) =>
      match ← readAdminCredsFrom base with
      | .ok creds => pure (.ok creds)
      | .error err =>
        -- Without a swap there is nothing to retry.
        if ← unchanged join dir generation then pure (.error (some err))
        else readAttempts n (some err)

def readAdminCredsDir : FileProg (Except (Option ReadError) Credentials) :=
  readAttempts join dir adminCredsReadAttempts none

/-! ## The volume -/

/-- What ..data leads to, what it led to before since the call began, newest first, and the
files that are gone. -/
structure Volume where
  target : GoString
  earlier : List GoString
  removed : GoString → GoString → Bool

namespace Volume

def generations (v : Volume) : List GoString := v.target :: v.earlier

/-- The volume when the call begins. -/
def fresh (target : GoString) : Volume := ⟨target, [], fun _ _ => false⟩

/-- kubelet switches to a directory that ..data never led to, with all its files, or removes
a file of a directory that ..data does not lead to. -/
inductive Kubelet : Volume → Volume → Prop where
  | switch (v : Volume) (target : GoString)
      (hnew : targetPath join dir target ∉ v.generations.map (targetPath join dir))
      (hthere : ∀ key, v.removed (targetPath join dir target) key = false) :
      Kubelet v ⟨target, v.generations, v.removed⟩
  | remove (v : Volume) (path key : GoString) (hold : path ≠ targetPath join dir v.target) :
      Kubelet v { v with removed := fun p k => decide (p = path ∧ k = key) || v.removed p k }

/-- ..data always exists; a directory holds what was written into it until a file is
removed. -/
def answer (content : GoString → GoString → Option GoString) (v : Volume) :
    (e : FileCall) → e.Answer
  | .readlink _ => .ok v.target
  | .readFile path key => if v.removed path key then none else content path key

end Volume

/-- A file operation on the volume, after any number of steps of kubelet. -/
def volume (content : GoString → GoString → Option GoString) :
    Setting FileCall FileCall.Answer Volume where
  sem v e r v' := Relation.ReflTransGen (Volume.Kubelet join dir) v v' ∧ v'.answer content e = r
  may _ _ := True

variable {join dir}

/-- The directories ..data led to are different ones, and the one it leads to is complete. -/
structure Volume.Sound (join : GoString → GoString → GoString) (dir : GoString) (v : Volume) :
    Prop where
  distinct : (v.generations.map (targetPath join dir)).Nodup
  complete : ∀ key, v.removed (targetPath join dir v.target) key = false

theorem Volume.fresh_sound (target : GoString) : (Volume.fresh target).Sound join dir :=
  ⟨by simp [fresh, generations], fun _ => rfl⟩

theorem Volume.Kubelet.sound {v v' : Volume} (h : Volume.Kubelet join dir v v')
    (hv : v.Sound join dir) : v'.Sound join dir := by
  cases h with
  | switch target hnew hthere =>
    exact ⟨List.nodup_cons.mpr ⟨hnew, hv.distinct⟩, hthere⟩
  | remove path key hold =>
    refine ⟨hv.distinct, fun k => ?_⟩
    have hk := hv.complete k
    simp only [hk, Bool.or_false, decide_eq_false_iff_not]
    exact fun h => hold h.1.symm

theorem Volume.Kubelet.generations {v v' : Volume} (h : Volume.Kubelet join dir v v') :
    v.generations <:+ v'.generations := by
  cases h with
  | switch target hnew hthere => exact List.suffix_cons _ _
  | remove path key hold => exact List.suffix_rfl

structure Volume.Since (join : GoString → GoString → GoString) (dir : GoString)
    (v v' : Volume) : Prop where
  sound : v'.Sound join dir
  generations : v.generations <:+ v'.generations

theorem Volume.Sound.since {v v' : Volume} (hv : v.Sound join dir)
    (h : Relation.ReflTransGen (Volume.Kubelet join dir) v v') : v.Since join dir v' := by
  induction h with
  | refl => exact ⟨hv, List.suffix_rfl⟩
  | tail _ hstep ih =>
    exact ⟨hstep.sound ih.sound, ih.generations.trans hstep.generations⟩

theorem Volume.Since.trans {v v' v'' : Volume} (h : v.Since join dir v')
    (h' : v'.Since join dir v'') : v.Since join dir v'' :=
  ⟨h'.sound, h.generations.trans h'.generations⟩

/-- Once ..data leads elsewhere, it never leads back, and there was a switch. -/
theorem Volume.Since.moved {v v' v'' : Volume} (h : v.Since join dir v')
    (hmoved : targetPath join dir v'.target ≠ targetPath join dir v.target)
    (h' : v'.Since join dir v'') :
    targetPath join dir v''.target ≠ targetPath join dir v.target ∧
      v.earlier.length < v''.earlier.length := by
  have hearlier : v.target ∈ v'.earlier := by
    have hmem := h.generations.subset (List.mem_cons_self : v.target ∈ v.generations)
    rcases List.mem_cons.mp hmem with heq | hmem
    · exact absurd (congrArg _ heq.symm) hmoved
    · exact hmem
  have hlater : v.target ∈ v''.earlier := by
    rcases List.suffix_cons_iff.mp h'.generations with heq | hsub
    · rw [← (List.cons.inj heq).2]
      exact hearlier
    · exact hsub.subset (List.mem_cons_of_mem _ hearlier)
  have hdistinct := List.nodup_cons.mp h'.sound.distinct
  refine ⟨fun heq => hdistinct.1 (heq ▸ List.mem_map_of_mem hlater), ?_⟩
  rcases List.suffix_cons_iff.mp (h.generations.trans h'.generations) with heq | hsub
  · have hsame := (List.cons.inj heq).1
    exact absurd (List.mem_map_of_mem hlater) (hsame ▸ hdistinct.1)
  · exact hsub.length_le

/-! ## What a read finds -/

variable {content : GoString → GoString → Option GoString} {v : Volume}

/-- The file holds a value that `readSecretFile` accepts. -/
def Holds (content : GoString → GoString → Option GoString) (path key value : GoString) : Prop :=
  ∃ data, content path key = some data ∧ secretValue data = value ∧ value ≠ []

def Complete (content : GoString → GoString → Option GoString) (path : GoString) : Prop :=
  (∃ value, Holds content path adminUsernameKey value) ∧
    ∃ value, Holds content path adminPasswordKey value

theorem resolveDataDir_spec (hv : v.Sound join dir) :
    (resolveDataDir join dir).Wp (volume join dir content) (fun r v' => v.Since join dir v' ∧
      r = .ok (targetPath join dir v'.target, targetPath join dir v'.target)) v := by
  refine ⟨trivial, fun r v' ⟨hsteps, hanswer⟩ => ?_⟩
  have hr : r = Except.ok v'.target := hanswer.symm
  subst hr
  exact ⟨hv.since hsteps, rfl⟩

theorem unchanged_spec (hv : v.Sound join dir) (generation : GoString) :
    (unchanged join dir generation).Wp (volume join dir content) (fun r v' =>
      v.Since join dir v' ∧ r = (targetPath join dir v'.target == generation)) v := by
  refine wp_seq (resolveDataDir_spec hv) fun r v' ⟨hsince, hr⟩ => ?_
  subst hr
  exact ⟨hsince, rfl⟩

theorem accepted_iff {base key value : GoString} :
    accepted base key (content base key) = .ok value ↔ Holds content base key value := by
  unfold Holds
  cases content base key with
  | none => simp [accepted]
  | some data =>
    by_cases hempty : secretValue data = []
    · simp only [accepted, hempty, if_true, reduceCtorEq, false_iff]
      rintro ⟨data', hdata, hvalue, hne⟩
      cases hdata
      exact hne (hvalue.symm.trans hempty)
    · simp only [accepted, hempty, if_false, Except.ok.injEq]
      constructor
      · rintro rfl
        exact ⟨data, rfl, rfl, hempty⟩
      · rintro ⟨data', hdata, hvalue, -⟩
        cases hdata
        exact hvalue

/-- A file is missing only once ..data leads elsewhere. -/
theorem readSecretFile_spec (hv : v.Sound join dir) (base key : GoString) :
    (readSecretFile base key).Wp (volume join dir content) (fun r v' => v.Since join dir v' ∧
      match r with
      | .ok value => Holds content base key value
      | .error _ => targetPath join dir v'.target ≠ base ∨ ¬ ∃ value, Holds content base key value)
      v := by
  refine ⟨trivial, fun r v' ⟨hsteps, hanswer⟩ => ?_⟩
  have hsince := hv.since hsteps
  have hr : (if v'.removed base key then none else content base key) = r := hanswer
  subst hr
  by_cases hremoved : v'.removed base key = true
  · rw [if_pos hremoved]
    refine ⟨hsince, .inl fun heq => ?_⟩
    have hthere := hsince.sound.complete key
    rw [heq, hremoved] at hthere
    cases hthere
  · rw [if_neg hremoved]
    refine ⟨hsince, ?_⟩
    cases hr : accepted base key (content base key) with
    | ok value => exact accepted_iff.mp hr
    | error err =>
      refine .inr ?_
      rintro ⟨value, hvalue⟩
      rw [accepted_iff.mpr hvalue] at hr
      cases hr

/-- Reading both files: the values are those of the directory, and an error means that ..data
led elsewhere at some time, unless the directory has no such values. -/
theorem readAdminCredsFrom_spec (hv : v.Sound join dir) (base : GoString) :
    (readAdminCredsFrom base).Wp (volume join dir content) (fun r v' => v.Since join dir v' ∧
      match r with
      | .ok creds => Holds content base adminUsernameKey creds.username ∧
          Holds content base adminPasswordKey creds.password
      | .error _ => (∃ mid, v.Since join dir mid ∧ targetPath join dir mid.target ≠ base ∧
          mid.Since join dir v') ∨ ¬ Complete content base) v := by
  refine wp_seq (readSecretFile_spec hv base adminUsernameKey) fun r₁ v₁ ⟨hsince₁, hr₁⟩ => ?_
  cases r₁ with
  | error err =>
    refine ⟨hsince₁, hr₁.imp (fun hmoved => ?_) fun hbad hcomplete => hbad hcomplete.1⟩
    exact ⟨v₁, hsince₁, hmoved, hsince₁.sound.since .refl⟩
  | ok username =>
    refine wp_seq (readSecretFile_spec hsince₁.sound base adminPasswordKey)
      fun r₂ v₂ ⟨hsince₂, hr₂⟩ => ?_
    have hsince := hsince₁.trans hsince₂
    cases r₂ with
    | error err =>
      refine ⟨hsince, hr₂.imp (fun hmoved => ?_) fun hbad hcomplete => hbad hcomplete.2⟩
      exact ⟨v₂, hsince, hmoved, hsince.sound.since .refl⟩
    | ok password => exact ⟨hsince, hr₁, hr₂⟩

/-- The credentials are those of one of the generations. -/
def Paired (join : GoString → GoString → GoString) (dir : GoString)
    (content : GoString → GoString → Option GoString) (v : Volume)
    (r : Except (Option ReadError) Credentials) : Prop :=
  ∀ creds, r = .ok creds → ∃ target ∈ v.generations,
    Holds content (targetPath join dir target) adminUsernameKey creds.username ∧
      Holds content (targetPath join dir target) adminPasswordKey creds.password

/-- The loop: each attempt that fails on complete generations sees a switch. -/
theorem readAttempts_spec (n : Nat) : ∀ {v : Volume} (_ : v.Sound join dir) (err : Option ReadError),
    (readAttempts join dir n err).Wp (volume join dir content) (fun r v' =>
      v.Since join dir v' ∧ Paired join dir content v' r ∧
        ((∀ target ∈ v'.generations, Complete content (targetPath join dir target)) →
          v'.earlier.length < v.earlier.length + n → ∃ creds, r = .ok creds)) v := by
  induction n with
  | zero =>
    intro v hv err
    refine ⟨hv.since .refl, (fun _ h => nomatch h), fun _ hlen => ?_⟩
    omega
  | succ n ih =>
    intro v hv err
    refine wp_seq (resolveDataDir_spec hv) fun r₁ v₁ ⟨hsince₁, hr₁⟩ => ?_
    subst hr₁
    refine wp_seq (readAdminCredsFrom_spec hsince₁.sound _) fun r₂ v₂ ⟨hsince₂, hr₂⟩ => ?_
    cases r₂ with
    | ok creds =>
      have hmem : v₁.target ∈ v₂.generations :=
        hsince₂.generations.subset List.mem_cons_self
      refine ⟨hsince₁.trans hsince₂, ⟨?_, fun _ _ => ⟨creds, rfl⟩⟩⟩
      rintro creds' ⟨⟩
      exact ⟨v₁.target, hmem, hr₂⟩
    | error err₂ =>
      refine wp_seq (unchanged_spec hsince₂.sound _) fun same v₃ ⟨hsince₃, hsame⟩ => ?_
      have hsince := hsince₁.trans (hsince₂.trans hsince₃)
      rcases hr₂ with ⟨mid, hmid, hmoved, hmid₂⟩ | hbad
      · -- ..data has led elsewhere, so the loop goes on and has one switch less to see
        obtain ⟨hne, hlen⟩ := hmid.moved hmoved (hmid₂.trans hsince₃)
        have hsame' : same = false := by
          rw [hsame]
          exact beq_eq_false_iff_ne.mpr hne
        subst hsame'
        refine wp_mono (fun r v' h => ?_) _ _ (ih hsince₃.sound (some err₂))
        obtain ⟨hsince', hpaired, hok⟩ := h
        refine ⟨hsince.trans hsince', hpaired, fun hcomplete hfew => hok hcomplete ?_⟩
        have hold := hsince₁.generations.length_le
        simp only [Volume.generations, List.length_cons] at hold
        omega
      · have hmem : v₁.target ∈ v₃.generations :=
          (hsince₂.trans hsince₃).generations.subset List.mem_cons_self
        cases same with
        | true =>
          refine ⟨hsince, (fun _ h => nomatch h), fun hcomplete _ => ?_⟩
          exact absurd (hcomplete _ hmem) hbad
        | false =>
          refine wp_mono (fun r v' h => ?_) _ _ (ih hsince₃.sound (some err₂))
          obtain ⟨hsince', hpaired, -⟩ := h
          refine ⟨hsince.trans hsince', hpaired, fun hcomplete _ => ?_⟩
          exact absurd (hcomplete _ (hsince'.generations.subset hmem)) hbad

/-- Whatever kubelet does between the file operations, credentials that the call returns are
those of one directory that ..data led to during it; and if all of those hold acceptable
values and kubelet switches four times at most, the call returns credentials. -/
theorem readAdminCredsDir_snapshot (join : GoString → GoString → GoString) (dir : GoString)
    (content : GoString → GoString → Option GoString) (target : GoString) :
    (readAdminCredsDir join dir).Wp (volume join dir content) (fun r v =>
      (∀ creds, r = .ok creds → ∃ t ∈ v.generations,
        Holds content (targetPath join dir t) adminUsernameKey creds.username ∧
          Holds content (targetPath join dir t) adminPasswordKey creds.password) ∧
      ((∀ t ∈ v.generations, Complete content (targetPath join dir t)) → v.earlier.length ≤ 4 →
        ∃ creds, r = .ok creds)) (Volume.fresh target) := by
  refine wp_mono (fun r v h => ?_) _ _ (readAttempts_spec adminCredsReadAttempts
    (Volume.fresh_sound target) none)
  obtain ⟨-, hpaired, hok⟩ := h
  refine ⟨hpaired, fun hcomplete hfew => hok hcomplete ?_⟩
  simpa [Volume.fresh, adminCredsReadAttempts] using Nat.lt_succ_of_le hfew

end Reader

end HarborBridge.AdminCreds

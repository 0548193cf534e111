import HarborBridge.Installer.ChartConfig
import HarborBridge.Installer.SampleNode

/-!
# Merging into a cloud's config

Package main of the installer, providerconfig.go and run.go: a merge pass changes its own entry of
the config kubelet has and nothing else, and kubelet can start with what it writes.
-/

namespace HarborBridge.Installer

open GoStrings Document Interaction

/-- The entry in the place of the first provider of its name, which is a bridge's, or after all
others when there is none; every other provider is where it was. -/
def InPlace (name : GoString) (entry : Fields) (before after : List Value) : Prop :=
  (∃ a p m b, before = a ++ p :: b ∧ (∀ q ∈ a, named name q = none) ∧ named name p = some m ∧
    isBridgeProvider m = true ∧ after = a ++ .map entry :: b) ∨
  ((∀ q ∈ before, named name q = none) ∧ after = before ++ [.map entry])

section

variable {name : GoString} {entry : Fields}

theorem replaceProvider_none {providers : List Value} (h : replaceProvider name entry providers = .ok none) :
    ∀ q ∈ providers, named name q = none := by
  induction providers with
  | nil => exact fun q hq => by cases hq
  | cons p rest ih =>
    rw [replaceProvider] at h
    cases hp : named name p with
    | some m =>
      simp only [hp] at h
      split_ifs at h
      cases h
    | none =>
      simp only [hp, bind, Except.bind] at h
      cases hrest : replaceProvider name entry rest with
      | error e => simp [hrest] at h
      | ok r =>
        cases r with
        | some l => simp [hrest] at h
        | none =>
          intro q hq
          rcases List.mem_cons.mp hq with rfl | hq
          · exact hp
          · exact ih hrest q hq

theorem replaceProvider_some {providers after : List Value}
    (h : replaceProvider name entry providers = .ok (some after)) :
    ∃ a p m b, providers = a ++ p :: b ∧ (∀ q ∈ a, named name q = none) ∧ named name p = some m ∧
      isBridgeProvider m = true ∧ after = a ++ .map entry :: b := by
  induction providers generalizing after with
  | nil => cases h
  | cons p rest ih =>
    rw [replaceProvider] at h
    cases hp : named name p with
    | some m =>
      simp only [hp] at h
      split_ifs at h with hbridge
      · cases h
        exact ⟨[], p, m, rest, rfl, fun q hq => (by cases hq), hp, hbridge, rfl⟩
    | none =>
      simp only [hp, bind, Except.bind] at h
      cases hrest : replaceProvider name entry rest with
      | error e => simp [hrest] at h
      | ok r =>
        cases r with
        | none => simp [hrest] at h
        | some l =>
          simp only [hrest, Option.map_some, Except.ok.injEq, Option.some.injEq] at h
          obtain ⟨a, o, m, b, rfl, ha, ho, hbridge, rfl⟩ := ih hrest
          refine ⟨p :: a, o, m, b, rfl, fun q hq => ?_, ho, hbridge, h.symm⟩
          rcases List.mem_cons.mp hq with rfl | hq
          · exact hp
          · exact ha q hq

theorem replaceProvider_inPlace {providers : List Value} {r : Option (List Value)}
    (h : replaceProvider name entry providers = .ok r) :
    InPlace name entry providers (r.getD (providers ++ [.map entry])) := by
  cases r with
  | none => exact .inr ⟨replaceProvider_none h, rfl⟩
  | some after => exact .inl (replaceProvider_some h)

theorem replaceProvider_at {a b : List Value} {p : Value} {m : Fields} (ha : ∀ q ∈ a, named name q = none)
    (hp : named name p = some m) (hbridge : isBridgeProvider m = true) :
    replaceProvider name entry (a ++ p :: b) = .ok (some (a ++ .map entry :: b)) := by
  induction a with
  | nil =>
    rw [List.nil_append, replaceProvider]
    simp [hp, hbridge]
  | cons q a ih =>
    have hq := ha q List.mem_cons_self
    rw [List.cons_append, replaceProvider]
    simp only [hq, ih fun r hr => ha r (List.mem_cons_of_mem q hr), bind, Except.bind, Option.map_some,
      List.cons_append]

theorem named_entry (h : entryName entry = .ok name) : named name (.map entry) = some entry := by
  simp [named, Value.asMap, Fields.string_eq_some.mp (string_of_entryName h)]

theorem InPlace.again {before after : List Value} (h : InPlace name entry before after)
    (hname : entryName entry = .ok name) (hbridge : isBridgeProvider entry = true) :
    replaceProvider name entry after = .ok (some after) := by
  rcases h with ⟨a, p, m, b, -, ha, -, -, rfl⟩ | ⟨ha, rfl⟩
  · exact replaceProvider_at ha (named_entry hname) hbridge
  · exact replaceProvider_at ha (named_entry hname) hbridge

/-! ## The document -/

/-- What a merge leaves of the config. -/
structure MergedConfig (L : Library) (entry : Fields) (existing out : GoString) (changed : Bool) (after : List Value) :
    Prop where
  /-- Every field but the providers is as it was, and of them only the entry is not. -/
  reads : ∃ name orig before, entryName entry = .ok name ∧ readConfig L existing = .ok (orig, before) ∧
    InPlace name entry before after ∧ L.readYaml out = some (orig.set providersKey (.list after))
  same : changed = false → out = existing
  /-- A JSON config stays one that kubelet reads as JSON. -/
  json : changed = true → isJSON existing = true → L.readJson out = L.readYaml out

variable {L : Library} {existing out : GoString} {changed : Bool}

theorem mergeProvider_eq {name : GoString} {orig : Fields} {before : List Value} {replaced : Option (List Value)}
    (hread : readConfig L existing = .ok (orig, before)) (hname : entryName entry = .ok name)
    (hreplace : replaceProvider name entry before = .ok replaced) :
    mergeProvider L existing entry =
      let cfg := orig.set providersKey (.list (replaced.getD (before ++ [.map entry])))
      if orig = cfg then .ok (existing, false)
      else match marshalMatching L cfg (isJSON existing) with
        | none => .error .marshal
        | some out => if checkRoundTrip L out cfg (isJSON existing) then .ok (out, true) else .error .noRoundTrip := by
  unfold mergeProvider
  simp only [hread, hname, hreplace, bind, Except.bind]
  cases marshalMatching L (orig.set providersKey (.list (replaced.getD (before ++ [.map entry]))))
    (isJSON existing) <;> rfl

/-- A merge that is not refused changed nothing, or wrote a document that reads back. -/
theorem mergeProvider_cases (h : mergeProvider L existing entry = .ok (out, changed)) :
    ∃ name orig before after, entryName entry = .ok name ∧ readConfig L existing = .ok (orig, before) ∧
      InPlace name entry before after ∧
      (changed = false ∧ out = existing ∧ orig = orig.set providersKey (.list after) ∨
        changed = true ∧ checkRoundTrip L out (orig.set providersKey (.list after)) (isJSON existing) = true) := by
  have hfail := h
  unfold mergeProvider at hfail
  cases hread : readConfig L existing with
  | error e => simp [hread, bind, Except.bind] at hfail
  | ok r =>
    obtain ⟨orig, before⟩ := r
    cases hname : entryName entry with
    | error e => simp [hread, hname, bind, Except.bind] at hfail
    | ok name =>
      cases hreplace : replaceProvider name entry before with
      | error e => simp [hread, hname, hreplace, bind, Except.bind] at hfail
      | ok replaced =>
        refine ⟨name, orig, before, _, rfl, rfl, replaceProvider_inPlace hreplace, ?_⟩
        rw [mergeProvider_eq hread hname hreplace] at h
        dsimp only at h
        generalize orig.set providersKey (.list (replaced.getD (before ++ [.map entry]))) = cfg at h ⊢
        split_ifs at h with hsame
        · cases h
          exact .inl ⟨rfl, rfl, hsame⟩
        · cases hmarshal : marshalMatching L cfg (isJSON existing) with
          | none =>
            rw [hmarshal] at h
            cases h
          | some text =>
            rw [hmarshal] at h
            dsimp only at h
            split_ifs at h with htrip
            cases h
            exact .inr ⟨rfl, htrip⟩

theorem mergeProvider_merged (h : mergeProvider L existing entry = .ok (out, changed)) :
    ∃ after, MergedConfig L entry existing out changed after := by
  obtain ⟨name, orig, before, after, hname, hread, hplace, hcases⟩ := mergeProvider_cases h
  refine ⟨after, ⟨name, orig, before, hname, hread, hplace, ?_⟩, fun hchanged => ?_, fun hchanged hjson => ?_⟩
  · rcases hcases with ⟨-, rfl, hsame⟩ | ⟨-, htrip⟩
    · rw [← hsame]
      exact (readConfig_eq_ok.mp hread).1
    · simp only [checkRoundTrip, Bool.and_eq_true, decide_eq_true_eq] at htrip
      exact htrip.1
  · rcases hcases with ⟨-, hsame, -⟩ | ⟨htrue, -⟩
    · exact hsame
    · rw [hchanged] at htrue
      cases htrue
  · rcases hcases with ⟨hfalse, -⟩ | ⟨-, htrip⟩
    · rw [hchanged] at hfalse
      cases hfalse
    · simp only [checkRoundTrip, hjson, Bool.and_eq_true, decide_eq_true_eq, Bool.not_true, Bool.false_or] at htrip
      rw [htrip.1, htrip.2]

/-- Merging the entry once more changes nothing. -/
theorem mergeProvider_again (hbridge : isBridgeProvider entry = true)
    (h : mergeProvider L existing entry = .ok (out, changed)) : mergeProvider L out entry = .ok (out, false) := by
  obtain ⟨after, ⟨⟨name, orig, before, hname, hread, hplace, hreads⟩, -, -⟩⟩ := mergeProvider_merged h
  have hversion := (readConfig_eq_ok.mp hread).2.1
  have hread' : readConfig L out = .ok (orig.set providersKey (.list after), after) := by
    refine readConfig_eq_ok.mpr ⟨hreads, ?_, composedDoc_providers after⟩
    rw [Fields.string_eq_some] at hversion ⊢
    rw [Fields.get_set_of_ne _ _ (by decide), hversion]
  rw [mergeProvider_eq hread' hname (hplace.again hname hbridge)]
  have hget : Fields.get (orig.set providersKey (.list after)) providersKey = some (.list after) := Fields.get_set _ _ _
  simp only [Option.getD_some, Fields.set_get hget, if_true]

end

/-! ## Kubelet's start -/

/-- A provider name that kubelet accepts. -/
def acceptedName (name : GoString) : Prop :=
  name ≠ [] ∧ name ≠ lit "." ∧ name ≠ lit ".." ∧ 47 ∉ name ∧ 32 ∉ name

/-- Kubelet starts with these providers; the binary of `own` is still to be written. -/
structure Startable (own : GoString) (hasBinary : GoString → Bool) (providers : List Value) : Prop where
  accepted : ∀ p ∈ providers, ∃ (m : Fields) (name : GoString), p = .map m ∧ m.string nameKey = some name ∧ acceptedName name
  nodup : (providers.map providerName).Nodup
  binaries : ∀ p ∈ providers, providerName p ≠ own → hasBinary (providerName p) = true

section

variable {own : GoString} {hasBinary : GoString → Bool}

theorem asMap_of_string {p : Value} {name : GoString} (h : (p.asMap.getD []).string nameKey = some name) :
    ∃ m : Fields, p = .map m ∧ m.string nameKey = some name ∧ providerName p = name := by
  cases p with
  | map m => exact ⟨m, rfl, h, by simp [providerName, h]⟩
  | scalar s => cases h
  | list l => cases h

theorem startable_cons {p : Value} {rest : List Value} {m : Fields} {name : GoString} (hp : p = .map m)
    (hname : m.string nameKey = some name) (hpname : providerName p = name) :
    Startable own hasBinary (p :: rest) ↔ acceptedName name ∧ (name ≠ own → hasBinary name = true) ∧
      (∀ q ∈ rest, providerName q ≠ name) ∧ Startable own hasBinary rest := by
  constructor
  · intro h
    obtain ⟨m', name', hm', hname', haccepted⟩ := h.accepted p List.mem_cons_self
    rw [hp, Value.map.injEq] at hm'
    subst hm'
    rw [hname, Option.some.injEq] at hname'
    subst hname'
    have hnodup := h.nodup
    rw [List.map_cons, List.nodup_cons, hpname] at hnodup
    refine ⟨haccepted, fun hown => ?_, fun q hq heq => hnodup.1 (heq ▸ List.mem_map_of_mem hq), ?_⟩
    · rw [← hpname] at hown ⊢
      exact h.binaries p List.mem_cons_self hown
    · exact ⟨fun q hq => h.accepted q (List.mem_cons_of_mem p hq), hnodup.2,
        fun q hq => h.binaries q (List.mem_cons_of_mem p hq)⟩
  · rintro ⟨haccepted, hbinary, hfresh, hrest⟩
    refine ⟨fun q hq => ?_, ?_, fun q hq => ?_⟩
    · rcases List.mem_cons.mp hq with rfl | hq
      · exact ⟨m, name, hp, hname, haccepted⟩
      · exact hrest.accepted q hq
    · rw [List.map_cons, List.nodup_cons, hpname]
      refine ⟨fun hmem => ?_, hrest.nodup⟩
      obtain ⟨q, hq, heq⟩ := List.mem_map.mp hmem
      exact hfresh q hq heq
    · rcases List.mem_cons.mp hq with rfl | hq
      · rw [hpname]
        exact hbinary
      · exact hrest.binaries q hq

theorem startProblemsFrom_eq_nil (i : Nat) (seen : List GoString) (providers : List Value) :
    startProblemsFrom own hasBinary i seen providers = [] ↔
      Startable own hasBinary providers ∧ ∀ p ∈ providers, providerName p ∉ seen := by
  induction providers generalizing i seen with
  | nil =>
    refine iff_of_true rfl ⟨⟨fun p hp => ?_, List.nodup_nil, fun p hp => ?_⟩, fun p hp => ?_⟩
    all_goals cases hp
  | cons p rest ih =>
    rw [startProblemsFrom]
    cases hstring : (p.asMap.getD []).string nameKey with
    | none =>
      refine iff_of_false (List.cons_ne_nil _ _) ?_
      rintro ⟨h, -⟩
      obtain ⟨m, name, rfl, hname, -⟩ := h.accepted p List.mem_cons_self
      rw [Value.asMap, Option.getD_some, hname] at hstring
      cases hstring
    | some name =>
      obtain ⟨m, hp, hname, hpname⟩ := asMap_of_string hstring
      -- the problems of this provider, and those of the others with its name seen
      dsimp only
      rw [List.append_eq_nil_iff, ih, startable_cons hp hname hpname]
      have hhere : ((if name = [] ∨ name = lit "." ∨ name = lit ".." ∨ 47 ∈ name ∨ 32 ∈ name then
            [StartProblem.refusedName name]
          else if name ∈ seen then [.twice name]
          else if name ≠ own ∧ hasBinary name = false then [.noBinary name]
          else []) = []) ↔ acceptedName name ∧ name ∉ seen ∧ (name ≠ own → hasBinary name = true) := by
        split_ifs with hrefused hseen hbinary
        · refine iff_of_false not_false fun h => ?_
          obtain ⟨⟨h1, h2, h3, h4, h5⟩, -⟩ := h
          rcases hrefused with hr | hr | hr | hr | hr
          · exact h1 hr
          · exact h2 hr
          · exact h3 hr
          · exact h4 hr
          · exact h5 hr
        · exact iff_of_false not_false fun h => h.2.1 hseen
        · refine iff_of_false not_false fun h => ?_
          rw [h.2.2 hbinary.1] at hbinary
          exact Bool.noConfusion hbinary.2
        · refine iff_of_true rfl ⟨?_, hseen, fun hown => ?_⟩
          · simp only [not_or] at hrefused
            exact hrefused
          · by_contra hnot
            exact hbinary ⟨hown, by simpa using hnot⟩
      rw [hhere]
      constructor
      · rintro ⟨⟨haccepted, hseen, hbinary⟩, hrest, hfresh⟩
        refine ⟨⟨haccepted, hbinary, fun q hq heq => hfresh q hq (by simp [heq]), hrest⟩, fun q hq => ?_⟩
        rcases List.mem_cons.mp hq with rfl | hq
        · rwa [hpname]
        · exact fun hmem => hfresh q hq (List.mem_cons_of_mem name hmem)
      · rintro ⟨⟨haccepted, hbinary, hfresh, hrest⟩, hseen⟩
        refine ⟨⟨haccepted, ?_, hbinary⟩, hrest, fun q hq hmem => ?_⟩
        · rw [← hpname]
          exact hseen p List.mem_cons_self
        · rcases List.mem_cons.mp hmem with heq | hmem
          · exact hfresh q hq heq
          · exact hseen q (List.mem_cons_of_mem p hq) hmem

/-! ## The pass -/

variable {L : Library} {cfg : Config}

theorem kubeletStartProblems_nil {doc : GoString} (h : kubeletStartProblems L doc own hasBinary = .ok []) :
    ∃ m l, L.readYaml doc = some m ∧ providerList m = .ok l ∧ Startable own hasBinary l := by
  unfold kubeletStartProblems at h
  cases hread : L.readYaml doc with
  | none => simp [hread] at h
  | some m =>
    cases hlist : providerList m with
    | error e => simp [hread, hlist, bind, Except.bind] at h
    | ok l =>
      simp only [hread, hlist, bind, Except.bind, Except.ok.injEq] at h
      exact ⟨m, l, rfl, hlist, ((startProblemsFrom_eq_nil 0 [] l).mp h).1⟩

/-- What a pass was shown when it last looked at a file of each role, and whatever the node
answers. -/
abbrev Seen := Role → Option Disk

def looking : Setting NodeCall NodeCall.Answer Seen :=
  watching (fun seen c => match c with
    | .look r _ => fun d => Function.update seen r (some d)
    | _ => fun _ => seen) fun _ _ => True

theorem wp_look {r : Role} {p : GoString} {Q : Except Err Disk → Seen → Prop} {seen : Seen}
    (h : ∀ d, Q (.ok d) (Function.update seen r (some d))) : (ask (.look r p)).run.Wp looking Q seen :=
  wp_ask trivial fun d _ hseen => hseen ▸ h d

theorem wp_orRefuse {ε α W : Type} {S : Setting NodeCall NodeCall.Answer W} {f : ε → Refusal} {r : Except ε α}
    {Q : Except Err α → W → Prop} {w : W} (hok : ∀ a, r = .ok a → Q (.ok a) w)
    (herr : ∀ e, Q (.error (.refused e)) w) : (orRefuse f r).run.Wp S Q w := by
  cases r with
  | ok a => exact hok a rfl
  | error e => exact herr (f e)

def CanStart (L : Library) (cfg : Config) (doc : GoString) (binDir : GoString) (d : Disk) : Prop :=
  ∃ m l, L.readYaml doc = some m ∧ providerList m = .ok l ∧
    Startable cfg.providerName (hasBinaryIn d binDir) l

theorem checkKubeletCanStart_wp (merged : GoString) (wiring : Wiring) (seen : Seen) :
    (checkKubeletCanStart L cfg merged wiring).run.Wp looking
      (fun r seen' => r = .ok () → ∃ d, CanStart L cfg merged wiring.binDir d ∧
        seen' = Function.update seen .binary (some d)) seen := by
  refine Prog.wp_run_seq (P := fun r seen' => ∃ d, r = .ok d ∧ seen' = Function.update seen .binary (some d))
    (wp_look fun d => ⟨d, rfl, rfl⟩) (fun d seen' hd => ?_) fun e _ he => by obtain ⟨_, he, -⟩ := he; cases he
  obtain ⟨_, hd, rfl⟩ := hd
  cases hd
  refine Prog.wp_run_seq (P := fun _ seen' => seen' = Function.update seen .binary (some d)) ?_
    (fun _ seen' hseen => ?_) fun e _ _ he => by cases he
  · unfold onlyIf
    split_ifs
    · rfl
    · rfl
  subst hseen
  refine Prog.wp_run_seq (P := fun r seen' => seen' = Function.update seen .binary (some d) ∧
    ∀ problems, r = .ok problems →
      kubeletStartProblems L merged cfg.providerName (hasBinaryIn d wiring.binDir) = .ok problems)
    (wp_orRefuse (fun problems h => ⟨rfl, ?_⟩) fun e => ⟨rfl, ?_⟩) (fun problems _ h => ?_) fun e _ _ he => by cases he
  · rintro _ ⟨⟩
    exact h
  · rintro _ ⟨⟩
  · obtain ⟨rfl, hproblems⟩ := h
    split
    · obtain ⟨m, l, hread, hlist, hstart⟩ := kubeletStartProblems_nil (hproblems [] rfl)
      exact fun _ => ⟨d, ⟨m, l, hread, hlist, hstart⟩, rfl⟩
    · rintro ⟨⟩

/-- What a merge pass into a cloud's config is about to write, from what it saw of the node. -/
structure CloudPlan (L : Library) (cfg : Config) (entry : Fields) (wiring : Wiring) (seen : Seen)
    (plan : MergePlan) : Prop where
  /-- The config as the pass read it. -/
  prior : ∃ d, seen .config = some d ∧ d.openRegular wiring.configFile = .ok plan.prior
  merged : ∃ after, MergedConfig L entry plan.prior.data plan.merged plan.changed after
  /-- Kubelet can start with it, given the bin dir as the pass saw it. -/
  starts : ∃ d, seen .binary = some d ∧ CanStart L cfg plan.merged wiring.binDir d
  /-- The next merge of the entry has nothing to do. -/
  again : mergeProvider L plan.merged entry = .ok (plan.merged, false)

/-- What `mergedConfig` returns for a config that is not chart-owned. -/
theorem mergedConfig_wp (rendered : GoString) {entry : Fields} {wiring : Wiring} (prior : HostFile)
    (hwired : wiring.configFile ≠ []) (seen : Seen) :
    (mergedConfig L cfg rendered entry wiring prior).run.Wp looking
      (fun r seen' => ∀ merged changed, r = .ok (merged, changed, []) →
        mergeProvider L prior.data entry = .ok (merged, changed) ∧ seen' .config = seen .config ∧
          ∃ d, seen' .binary = some d ∧ CanStart L cfg merged wiring.binDir d) seen := by
  refine Prog.wp_run_seq (P := fun _ seen' => seen' .config = seen .config) (wp_look fun d => ?_)
    (fun d seen₁ hseen => ?_) fun e _ _ _ _ he => by cases he
  · exact Function.update_of_ne (by decide) _ _
  dsimp only
  generalize (if wiring.configFile = cfg.ownConfigPath then some true
    else claimsChartOwned L d wiring.binDir wiring.configFile) = claimed
  split
  · rintro _ _ ⟨⟩
  · refine Prog.wp_run_seq (P := fun _ _ => True) (Prog.wp_trivial (fun _ _ => trivial) _ _)
      (fun merged _ _ => ?_) fun e _ _ _ _ he => by cases he
    rintro _ _ heq
    simp only [Except.ok.injEq, Prod.mk.injEq] at heq
    exact absurd heq.2.2 hwired
  · refine Prog.wp_run_seq (P := fun r seen' => seen' = seen₁ ∧ ∀ m, r = .ok m →
      mergeProvider L prior.data entry = .ok m) (wp_orRefuse (fun m h => ⟨rfl, ?_⟩) fun e => ⟨rfl, ?_⟩)
      (fun m _ h => ?_) fun e _ _ _ _ he => by cases he
    · rintro _ ⟨⟩
      exact h
    · rintro _ ⟨⟩
    · obtain ⟨rfl, hmerge⟩ := h
      refine Prog.wp_run_seq (checkKubeletCanStart_wp m.1 wiring _) (fun _ seen₂ hstart => ?_)
        fun e _ _ _ _ he => by cases he
      obtain ⟨d, hstarts, rfl⟩ := hstart rfl
      rintro _ _ ⟨⟩
      exact ⟨hmerge m rfl, (Function.update_of_ne (by decide) _ _).trans hseen,
        d, Function.update_self _ _ _, hstarts⟩

theorem readPrior_wp {p : GoString} (seen : Seen) :
    (readPrior .config p).run.Wp looking (fun r seen' => ∀ prior, r = .ok (some prior) →
      ∃ d, seen' .config = some d ∧ d.openRegular p = .ok prior) seen := by
  refine Prog.wp_run_seq (P := fun r seen' => ∀ d, r = .ok d → seen' .config = some d)
    (wp_look fun d => ?_) (fun d seen' hd => ?_) fun e _ _ _ he => by cases he
  · rintro _ ⟨⟩
    exact Function.update_self _ _ _
  · unfold priorIn
    split
    · rintro _ ⟨⟩
      exact ⟨d, hd d rfl, ‹_›⟩
    · rintro _ ⟨⟩
    · rintro _ ⟨⟩

/-- Looking whether kubelet has rejected the content tells nothing about the other files. -/
theorem refuseRejected_wp (t : Target) (seen : Seen) :
    (refuseRejected L cfg t).run.Wp looking
      (fun _ seen' => seen' .config = seen .config ∧ seen' .binary = seen .binary) seen := by
  have honly : (refuseRejected L cfg t).run.Only fun c => ∀ r p, c = .look r p → r = .state := by
    refine Prog.only_run_bind (Prog.only_run_bind (Prog.only_lift ⟨?_, fun _ => trivial⟩) fun d => ?_) fun st => ?_
    · rintro _ _ ⟨⟩
      rfl
    · split <;> trivial
    · split
      · trivial
      · split_ifs
        · trivial
        · refine Prog.only_run_bind (Prog.only_run_bind (Prog.only_lift ⟨?_, fun _ => trivial⟩) fun id => ?_)
            fun now => ?_
          · rintro _ _ ⟨⟩
          · split <;> trivial
          · split_ifs <;> trivial
  refine Prog.wp_only honly (fun seen' c hseen hc => ⟨trivial, ?_⟩) ⟨rfl, rfl⟩
  rintro r _ rfl
  cases c with
  | look role p =>
    obtain rfl := hc role p rfl
    exact ⟨(Function.update_of_ne (by decide) _ _).trans hseen.1,
      (Function.update_of_ne (by decide) _ _).trans hseen.2⟩
  | _ => exact hseen

/-- On every node, a merge pass into a config that is not chart-owned goes on only with such a
plan. -/
theorem planMerge_cloud (L : Library) (cfg : Config) (rendered : GoString) {entry : Fields} {wiring : Wiring}
    (hbridge : isBridgeProvider entry = true) (hwired : wiring.configFile ≠ []) (seen : Seen) :
    (planMerge L cfg rendered entry wiring).run.Wp looking
      (fun r seen' => ∀ plan, r = .ok plan → plan.claim = [] → CloudPlan L cfg entry wiring seen' plan) seen := by
  refine Prog.wp_run_seq (P := fun r seen' => ∀ prior, r = .ok (some prior) →
    ∃ d, seen' .config = some d ∧ d.openRegular wiring.configFile = .ok prior)
    (readPrior_wp seen) (fun prior seen₁ hprior => ?_) fun e _ _ _ he => by cases he
  split
  · rintro _ ⟨⟩
  · rename_i prior
    obtain ⟨d, hd, hopen⟩ := hprior prior rfl
    refine Prog.wp_run_seq (mergedConfig_wp rendered prior hwired seen₁) (fun r seen₂ hr => ?_)
      fun e _ _ _ he => by cases he
    obtain ⟨merged, changed, claim⟩ := r
    refine Prog.wp_run_seq (refuseRejected_wp _ seen₂) (fun _ seen₃ hseen => ?_) fun e _ _ _ he => by cases he
    rintro _ ⟨⟩ hclaim
    obtain ⟨hmerge, hconfig, d', hd', hstarts⟩ := hr merged changed (by rw [← hclaim])
    exact ⟨⟨d, hseen.1.trans (hconfig.trans hd), hopen⟩, mergeProvider_merged hmerge,
      ⟨d', hseen.2.trans hd', hstarts⟩, mergeProvider_again hbridge hmerge⟩

end

/-- A cloud's config and the binary of its one provider. -/
def cloudDisk : Disk :=
  (Disk.empty.put (lit "/b/gcr") (.file ⟨[], 0o755, root⟩)).put (lit "/k/cfg")
    (.file ⟨encodeDocument (sampleDoc [.map [(nameKey, .str (lit "gcr"))]]), 0o644, root⟩)

/-- The answers of a node with these files, and what the pass was shown. -/
def Seen.serve (d : Disk) (seen : Seen) (c : NodeCall) : c.Answer × Seen :=
  match c with
  | .look r _ => (d, Function.update seen r (some d))
  | c => ((Host.serve (sampleSources renderedOwn) (sampleHost d) c).1, seen)

def samplePlan : Except Err MergePlan × Seen :=
  (planMerge plainLibrary (sampleConfig .merge (lit "own")) renderedOwn ownEntry
    ⟨lit "/b", lit "/k/cfg"⟩).run.exec (Seen.serve cloudDisk) fun _ => none

theorem planMerge_cloud_sample : ∃ plan, samplePlan.1 = .ok plan ∧ plan.changed = true ∧
    CloudPlan plainLibrary (sampleConfig .merge (lit "own")) ownEntry ⟨lit "/b", lit "/k/cfg"⟩ samplePlan.2 plan := by
  have hplan := @planMerge_cloud plainLibrary (sampleConfig .merge (lit "own")) renderedOwn ownEntry
    ⟨lit "/b", lit "/k/cfg"⟩ (by decide +kernel) (by decide) (fun _ => none)
  have hserve : ∀ seen c, looking.sem seen c (Seen.serve cloudDisk seen c).1 (Seen.serve cloudDisk seen c).2 := by
    intro seen c
    cases c <;> rfl
  have hrun : samplePlan.1.toOption.map (fun plan => (plan.claim, plan.changed)) = some ([], true) := by
    decide +kernel
  obtain ⟨plan, hok, hclaim⟩ := Option.map_eq_some_iff.mp hrun
  rw [Prod.mk.injEq] at hclaim
  have hexec : samplePlan.1 = .ok plan := by
    cases hr : samplePlan.1 with
    | error e =>
      rw [hr] at hok
      cases hok
    | ok a =>
      rw [hr] at hok
      exact congrArg Except.ok (Option.some.inj hok)
  exact ⟨plan, hexec, hclaim.2, Prog.wp_exec _ hserve _ _ _ hplan plan hexec hclaim.1⟩

end HarborBridge.Installer

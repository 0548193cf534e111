import HarborBridge.Lib.Firsts
import HarborBridge.Installer.PlainLibrary

/-!
# What a chart-owned config holds

Package main of the installer, providerconfig.go and run.go (ADR-0029): which entries a pass keeps
in a config that others can write, and that the next pass finds nothing to change.
-/

namespace HarborBridge.Installer

open GoStrings Document Firsts

def providerName (p : Value) : GoString := ((p.asMap.getD []).string nameKey).getD []

section

variable (name : GoString) (entry : Fields) (sibling : Fields → Bool)

def ofOther (p : Value) : Bool :=
  match p.asMap with
  | none => false
  | some m => decide (providerName p ≠ name) && sibling m

def ofOwn (p : Value) : Bool := p.asMap.isSome && decide (providerName p = name)

/-- What the providers of a chart-owned config are after a pass, from those before it. -/
structure Composed (before after : List Value) : Prop where
  nodup : (after.map providerName).Nodup
  own : after.filter (fun p => decide (providerName p = name)) = [.map entry]
  /-- Of each other name the first provider that is another install's, in their order. -/
  others : after.filter (fun p => decide (providerName p ≠ name)) =
    firsts providerName (before.filter (ofOther name sibling))
  /-- The entry is in the place of the first provider of its name. -/
  inPlace : ∀ a o b, before = a ++ o :: b → ofOwn name o = true → (∀ p ∈ a, ofOwn name p = false) →
    after.takeWhile (fun p => decide (providerName p ≠ name)) =
      firsts providerName (a.filter (ofOther name sibling))
  last : (∀ p ∈ before, ofOwn name p = false) → after.getLast? = some (.map entry)

variable {name entry sibling}

namespace Composed

variable {before after : List Value} (h : Composed name entry sibling before after)
include h

theorem own_of_mem {p : Value} (hp : p ∈ after) (hname : providerName p = name) : p = .map entry := by
  have hmem : p ∈ after.filter fun p => decide (providerName p = name) :=
    List.mem_filter.mpr ⟨hp, decide_eq_true hname⟩
  rw [h.own] at hmem
  exact List.mem_singleton.mp hmem

theorem other_of_mem {p : Value} (hp : p ∈ after) (hname : providerName p ≠ name) :
    p ∈ before ∧ ofOther name sibling p = true := by
  have hmem : p ∈ after.filter fun p => decide (providerName p ≠ name) :=
    List.mem_filter.mpr ⟨hp, decide_eq_true hname⟩
  rw [h.others] at hmem
  exact List.mem_filter.mp (mem_of_mem_firsts providerName hmem)

theorem entry_mem : .map entry ∈ after := by
  have hmem : .map entry ∈ after.filter fun p => decide (providerName p = name) := by
    rw [h.own]
    exact List.mem_singleton.mpr rfl
  exact (List.mem_filter.mp hmem).1

theorem singleton (hone : after.length = 1) : after = [.map entry] := by
  obtain ⟨p, rfl⟩ := List.length_eq_one_iff.mp hone
  rw [List.mem_singleton.mp h.entry_mem]

end Composed

/-! ## The loop -/

variable (name entry sibling)

def looksAt (p : Value) : Bool := ofOwn name p || ofOther name sibling p

def placed (p : Value) : Value := if providerName p = name then .map entry else p

variable {name entry sibling}

theorem composeFrom_kept (seen : List GoString) (providers : List Value) :
    (composeFrom name entry sibling seen providers).kept =
      (firsts providerName ((providers.filter (looksAt name sibling)).filter
        fun p => decide (providerName p ∉ seen))).map (placed name entry) := by
  induction providers generalizing seen with
  | nil => rfl
  | cons p rest ih =>
    have hstep : ∀ n, providerName p = n → n ∉ seen → looksAt name sibling p = true →
        (firsts providerName (((p :: rest).filter (looksAt name sibling)).filter
          fun q => decide (providerName q ∉ seen))).map (placed name entry) =
        placed name entry p :: (composeFrom name entry sibling (n :: seen) rest).kept := by
      intro n hn hseen hlooks
      rw [ih (n :: seen), List.filter_cons_of_pos hlooks, List.filter_cons_of_pos (by rw [hn]; simpa using hseen),
        firsts, List.map_cons, hn, ← firsts_filter providerName (fun k => decide (k ≠ n)), List.filter_filter]
      congr 4
      funext q
      simp [not_or]
    have hskip : (looksAt name sibling p = true → providerName p ∈ seen) →
        (firsts providerName (((p :: rest).filter (looksAt name sibling)).filter
          fun q => decide (providerName q ∉ seen))).map (placed name entry) =
        (composeFrom name entry sibling seen rest).kept := by
      intro h
      rw [ih seen]
      by_cases hlooks : looksAt name sibling p = true
      · rw [List.filter_cons_of_pos hlooks, List.filter_cons_of_neg (by simpa using h hlooks)]
      · rw [List.filter_cons_of_neg hlooks]
    cases hmap : p.asMap with
    | none =>
      rw [hskip (by simp [looksAt, ofOwn, ofOther, hmap]), composeFrom, hmap]
    | some m =>
      have hname : (m.string nameKey).getD [] = providerName p := by rw [providerName, hmap]; rfl
      rw [composeFrom, hmap]
      dsimp only
      rw [hname]
      split_ifs with hown hother
      · rw [hstep name hown.1 hown.2 (by simp [looksAt, ofOwn, hmap, hown.1]), placed, if_pos hown.1]
      · rw [hstep _ rfl hother.2.1 (by simp [looksAt, ofOther, hmap, hother.1, hother.2.2]), placed,
          if_neg hother.1]
      · rw [hskip]
        intro hlooks
        by_contra hseen
        by_cases heq : providerName p = name
        · exact hown ⟨heq, heq ▸ hseen⟩
        · refine hother ⟨heq, hseen, ?_⟩
          simpa [looksAt, ofOwn, ofOther, hmap, heq] using hlooks

/-- Whether the loop met a provider of the install's name. -/
theorem composeFrom_seen (seen : List GoString) (providers : List Value) :
    name ∈ (composeFrom name entry sibling seen providers).seen ↔
      name ∈ seen ∨ ∃ p ∈ providers, ofOwn name p = true := by
  induction providers generalizing seen with
  | nil => simp [composeFrom]
  | cons p rest ih =>
    have hnot : ofOwn name p = false → (name ∈ seen ∨ (∃ q ∈ p :: rest, ofOwn name q = true) ↔
        name ∈ seen ∨ ∃ q ∈ rest, ofOwn name q = true) := by
      intro hp
      simp [hp]
    cases hmap : p.asMap with
    | none => rw [composeFrom, hmap, ih, hnot (by simp [ofOwn, hmap])]
    | some m =>
      have hname : (m.string nameKey).getD [] = providerName p := by rw [providerName, hmap]; rfl
      rw [composeFrom, hmap]
      dsimp only
      rw [hname]
      split_ifs with hown hother
      · simp [ih, ofOwn, hmap, hown.1]
      · rw [ih, hnot (by simp [ofOwn, hother.1]), List.mem_cons]
        simp [Ne.symm hother.1]
      · rw [ih]
        by_cases heq : providerName p = name
        · have hseen : name ∈ seen := by
            by_contra hseen
            exact hown ⟨heq, hseen⟩
          simp [hseen]
        · rw [hnot (by simp [ofOwn, heq])]

/-! ## The result of the loop -/

theorem ofOther_ne {p : Value} (h : ofOther name sibling p = true) : providerName p ≠ name := by
  unfold ofOther at h
  split at h
  · cases h
  · simp only [Bool.and_eq_true, decide_eq_true_eq] at h
    exact h.1

theorem filter_looksAt (providers : List Value) :
    (providers.filter (looksAt name sibling)).filter (fun p => decide (providerName p ≠ name)) =
      providers.filter (ofOther name sibling) := by
  rw [List.filter_filter]
  refine List.filter_congr fun p _ => ?_
  by_cases hname : providerName p = name
  · have hother : ofOther name sibling p = false := by
      by_contra h
      exact ofOther_ne (by simpa using h) hname
    simp [hname, hother]
  · simp [looksAt, ofOwn, hname]

theorem looksAt_of_no_own {providers : List Value} (h : ∀ p ∈ providers, ofOwn name p = false) :
    providers.filter (looksAt name sibling) = providers.filter (ofOther name sibling) :=
  List.filter_congr fun p hp => by simp [looksAt, h p hp]

theorem map_placed {l : List Value} (h : ∀ p ∈ l, providerName p ≠ name) : l.map (placed name entry) = l := by
  refine (List.map_congr_left fun p hp => ?_).trans (List.map_id l)
  rw [placed, if_neg (h p hp)]
  rfl

theorem firsts_other_ne {providers : List Value} :
    ∀ p ∈ firsts providerName (providers.filter (ofOther name sibling)), providerName p ≠ name := by
  intro p hp
  exact ofOther_ne (List.mem_filter.mp (mem_of_mem_firsts providerName hp)).2

variable (hentry : providerName (.map entry) = name)
include hentry

theorem providerName_placed (p : Value) : providerName (placed name entry p) = providerName p := by
  unfold placed
  split_ifs with h
  · rw [h, hentry]
  · rfl

theorem map_providerName_placed (l : List Value) :
    (l.map (placed name entry)).map providerName = l.map providerName := by
  rw [List.map_map]
  exact List.map_congr_left fun p _ => providerName_placed hentry p

theorem composed_of_own {providers : List Value} {o : Value} (ho : o ∈ providers) (hown : ofOwn name o = true) :
    Composed name entry sibling providers
      ((firsts providerName (providers.filter (looksAt name sibling))).map (placed name entry)) := by
  have hname : ∀ p, ofOwn name p = true → providerName p = name := by
    intro p hp
    simp only [ofOwn, Bool.and_eq_true, decide_eq_true_eq] at hp
    exact hp.2
  have hlooks : ∀ p, ofOwn name p = true → looksAt name sibling p = true := by
    intro p hp
    simp [looksAt, hp]
  have hnodup := nodup_firsts providerName (providers.filter (looksAt name sibling))
  refine ⟨?_, ?_, ?_, ?_, fun h => absurd hown (by simp [h o ho])⟩
  · rwa [map_providerName_placed hentry]
  · obtain ⟨q, hq, hkey⟩ := exists_firsts providerName (List.mem_filter.mpr ⟨ho, hlooks o hown⟩)
    rw [hname o hown] at hkey
    have hfilter : ∀ p, ((fun p => decide (providerName p = name)) ∘ placed name entry) p =
        decide (providerName p = providerName q) := by
      intro p
      simp only [Function.comp_apply, providerName_placed hentry, hkey]
    rw [List.filter_map, List.filter_congr fun p _ => hfilter p, filter_key_of_nodup providerName hnodup hq,
      List.map_singleton, placed, if_pos hkey]
  · have hfilter : ∀ p, ((fun p => decide (providerName p ≠ name)) ∘ placed name entry) p =
        decide (providerName p ≠ name) := by
      intro p
      simp only [Function.comp_apply, providerName_placed hentry]
    rw [List.filter_map, List.filter_congr fun p _ => hfilter p,
      ← firsts_filter providerName (fun k => decide (k ≠ name)), filter_looksAt, map_placed firsts_other_ne]
  · rintro a q b rfl hq ha
    -- the names before the entry are other names, so the first of its name stays
    have hsplit : (a ++ q :: b).filter (looksAt name sibling) =
        a.filter (ofOther name sibling) ++ q :: b.filter (looksAt name sibling) := by
      rw [List.filter_append, List.filter_cons_of_pos (hlooks q hq), looksAt_of_no_own ha]
    have hfresh : providerName q ∉ (a.filter (ofOther name sibling)).map providerName := by
      rw [hname q hq]
      intro hmem
      obtain ⟨p, hp, hpname⟩ := List.mem_map.mp hmem
      exact ofOther_ne (List.mem_filter.mp hp).2 hpname
    obtain ⟨rest, hrest⟩ := firsts_append_fresh providerName hfresh (b.filter (looksAt name sibling))
    rw [hsplit, hrest, List.map_append, List.map_cons, map_placed firsts_other_ne, placed, if_pos (hname q hq), List.takeWhile_append_of_pos,
      List.takeWhile_cons_of_neg, List.append_nil]
    · simp [hentry]
    · intro p hp
      rw [decide_eq_true_eq]
      exact firsts_other_ne p hp

theorem composed_of_no_own {providers : List Value} (h : ∀ p ∈ providers, ofOwn name p = false) :
    Composed name entry sibling providers
      ((firsts providerName (providers.filter (looksAt name sibling))).map (placed name entry) ++ [.map entry]) := by
  rw [looksAt_of_no_own h, map_placed firsts_other_ne]
  have hne : ∀ p ∈ firsts providerName (providers.filter (ofOther name sibling)), providerName p ≠ name :=
    firsts_other_ne
  refine ⟨?_, ?_, ?_, ?_, fun _ => List.getLast?_concat⟩
  · rw [List.map_append, List.nodup_append]
    refine ⟨nodup_firsts providerName _, by simp, fun a ha b hb => ?_⟩
    obtain ⟨p, hp, rfl⟩ := List.mem_map.mp ha
    simp only [List.map_cons, List.map_nil, List.mem_singleton, hentry] at hb
    exact hb ▸ hne p hp
  · rw [List.filter_append, List.filter_eq_nil_iff.mpr fun p hp => by simpa using hne p hp]
    simp [hentry]
  · rw [List.filter_append, List.filter_eq_self.mpr fun p hp => by simpa using hne p hp]
    simp [hentry]
  · rintro a o b rfl hown -
    exact absurd hown (by simp [h o (by simp)])

theorem composeProviders_composed (providers : List Value) :
    Composed name entry sibling providers (composeProviders name entry sibling providers) := by
  have hkept := @composeFrom_kept name entry sibling [] providers
  have hall : (providers.filter (looksAt name sibling)).filter (fun p => decide (providerName p ∉ [])) =
      providers.filter (looksAt name sibling) := List.filter_eq_self.mpr (by simp)
  rw [hall] at hkept
  have hseen := @composeFrom_seen name entry sibling [] providers
  unfold composeProviders
  dsimp only
  split_ifs with hmem
  · obtain ⟨o, ho, hown⟩ := (hseen.mp hmem).resolve_left List.not_mem_nil
    rw [hkept]
    exact composed_of_own hentry ho hown
  · rw [hkept]
    apply composed_of_no_own hentry
    intro p hp
    by_contra hown
    exact hmem (hseen.mpr (.inr ⟨p, hp, by simpa using hown⟩))

/-- The loop finds nothing to change in its own result. -/
theorem composeProviders_again (providers : List Value) :
    composeProviders name entry sibling (composeProviders name entry sibling providers) =
      composeProviders name entry sibling providers := by
  have h : Composed name entry sibling providers _ := composeProviders_composed hentry providers
  generalize composeProviders name entry sibling providers = l at h
  have hlooks : ∀ p ∈ l, looksAt name sibling p = true := by
    intro p hp
    by_cases hname : providerName p = name
    · rw [h.own_of_mem hp hname]
      simp [looksAt, ofOwn, hentry, Value.asMap]
    · simp [looksAt, (h.other_of_mem hp hname).2]
  have hkept := @composeFrom_kept name entry sibling [] l
  have hall : (l.filter (looksAt name sibling)).filter (fun p => decide (providerName p ∉ [])) = l := by
    rw [List.filter_eq_self.mpr hlooks]
    exact List.filter_eq_self.mpr (by simp)
  have hsame : l.map (placed name entry) = l := by
    refine (List.map_congr_left fun p hp => ?_).trans (List.map_id l)
    unfold placed
    split_ifs with hname
    · exact (h.own_of_mem hp hname).symm
    · rfl
  rw [hall, firsts_of_nodup providerName h.nodup, hsame] at hkept
  have hseen := @composeFrom_seen name entry sibling [] l
  unfold composeProviders
  dsimp only
  rw [if_pos, hkept]
  exact hseen.mpr (.inr ⟨_, h.entry_mem, by simp [ofOwn, hentry, Value.asMap]⟩)

end

/-! ## The document -/

/-- A rendered config: a document of kubelet's version with the install's entry as its only
provider. -/
structure Renders (L : Library) (rendered : GoString) (entry doc : Fields) : Prop where
  reads : L.readYaml rendered = some doc
  version : doc.string apiVersionKey = some credentialProviderConfigAPIVersion
  provider : doc.get providersKey = some (.list [.map entry])

section

variable {L : Library} {name existing rendered out : GoString} {entry doc cur : Fields} {providers : List Value}
  {sibling : Fields → Bool}

theorem readConfig_eq_ok : readConfig L existing = .ok (cur, providers) ↔ L.readYaml existing = some cur ∧
    cur.string apiVersionKey = some credentialProviderConfigAPIVersion ∧ providerList cur = .ok providers := by
  unfold readConfig
  cases L.readYaml existing with
  | none => simp
  | some c =>
    by_cases hversion : c.string apiVersionKey = some credentialProviderConfigAPIVersion
    · cases hlist : providerList c with
      | error e =>
        simp only [hversion, hlist, ne_eq, not_true_eq_false, if_false, Option.some.injEq, bind, Except.bind]
        refine iff_of_false (fun h => by cases h) ?_
        rintro ⟨rfl, -, hl⟩
        rw [hlist] at hl
        cases hl
      | ok l =>
        simp only [hversion, hlist, ne_eq, not_true_eq_false, if_false, Option.some.injEq, bind, Except.bind]
        constructor
        · rintro h
          cases h
          exact ⟨rfl, hversion, hlist⟩
        · rintro ⟨rfl, -, hl⟩
          rw [hlist] at hl
          cases hl
          rfl
    · simp only [ne_eq, hversion, not_false_eq_true, if_true, Option.some.injEq, bind, Except.bind]
      refine iff_of_false (fun h => by cases h) ?_
      rintro ⟨rfl, hv, -⟩
      exact hversion hv

/-- The document of the rendered config with the providers that the config keeps. -/
def composedDoc (doc : Fields) (providers : List Value) : Fields := doc.set providersKey (.list providers)

theorem composedDoc_version (h : Renders L rendered entry doc) (l : List Value) :
    (composedDoc doc l).string apiVersionKey = some credentialProviderConfigAPIVersion := by
  rw [← h.version, Fields.string, Fields.string, composedDoc, Fields.get_set_of_ne _ _ (by decide)]

theorem composedDoc_providers (l : List Value) : providerList (composedDoc doc l) = .ok l := by
  rw [providerList, composedDoc, Fields.get_set]

theorem composeOwnConfig_eq (hread : readConfig L existing = .ok (cur, providers))
    (hname : entryName entry = .ok name) (h : Renders L rendered entry doc) :
    composeOwnConfig L existing rendered entry sibling =
      let kept := composeProviders name entry sibling providers
      if kept.length = 1 then .ok rendered
      else if cur = composedDoc doc kept then .ok existing
      else match L.writeYaml (composedDoc doc kept) with
        | none => .error .marshal
        | some out => if checkRoundTrip L out (composedDoc doc kept) false then .ok out else .error .noRoundTrip := by
  unfold composeOwnConfig
  simp only [hread, hname, h.reads, bind, Except.bind, composedDoc]
  cases L.writeYaml (doc.set providersKey (.list (composeProviders name entry sibling providers))) <;> rfl

theorem providerName_entry (h : entryName entry = .ok name) : providerName (.map entry) = name := by
  unfold entryName at h
  cases hstring : entry.string nameKey with
  | none =>
    rw [hstring] at h
    cases h
  | some n =>
    simp only [hstring] at h
    split_ifs at h
    cases h
    simp [providerName, Value.asMap, hstring]

variable (hwrites : ∀ m, (L.writeYaml m).isSome = true)
include hwrites

/-- What the installer writes reads as the composition. -/
theorem chartOwnedConfig_reads (hread : readConfig L existing = .ok (cur, providers))
    (hname : entryName entry = .ok name) (h : Renders L rendered entry doc)
    (hout : chartOwnedConfig L existing rendered entry sibling = .ok out) :
    L.readYaml out = some (composedDoc doc (composeProviders name entry sibling providers)) := by
  rw [chartOwnedConfig, composeOwnConfig_eq hread hname h] at hout
  dsimp only at hout
  obtain ⟨text, htext⟩ := Option.isSome_iff_exists.mp (hwrites (composedDoc doc
    (composeProviders name entry sibling providers)))
  rw [htext] at hout
  dsimp only at hout
  split_ifs at hout with hone hsame htrip
  · cases hout
    have hkept : composeProviders name entry sibling providers = [.map entry] :=
      (composeProviders_composed (providerName_entry hname) providers).singleton hone
    rw [h.reads, hkept, composedDoc, Fields.set_get h.provider]
  · cases hout
    rw [(readConfig_eq_ok.mp hread).1, hsame]
  · cases hout
    simp only [checkRoundTrip, Bool.and_eq_true, decide_eq_true_eq] at htrip
    exact htrip.1

omit hwrites in
/-- A file that is no config is replaced. -/
theorem chartOwnedConfig_replaces {e : DocumentError} (hread : readConfig L existing = .error e) :
    chartOwnedConfig L existing rendered entry sibling = .ok rendered := by
  have hcompose : composeOwnConfig L existing rendered entry sibling = .error e := by
    simp only [composeOwnConfig, hread, bind, Except.bind]
  have hne : e ≠ .noRoundTrip := by
    rintro rfl
    unfold readConfig at hread
    cases hyaml : L.readYaml existing with
    | none => simp [hyaml] at hread
    | some c =>
      simp only [hyaml, bind, Except.bind] at hread
      split_ifs at hread
      · cases hread
      · cases hlist : providerList c with
        | ok l => simp [hlist] at hread
        | error e =>
          simp only [hlist] at hread
          cases hread
          unfold providerList at hlist
          split at hlist <;> cases hlist
  rw [chartOwnedConfig, hcompose]
  cases e <;> first | rfl | exact absurd rfl hne

/-- Composing again from what was composed. -/
theorem chartOwnedConfig_fixed (hname : entryName entry = .ok name) (h : Renders L rendered entry doc)
    (hout : chartOwnedConfig L existing rendered entry sibling = .ok out) :
    chartOwnedConfig L out rendered entry sibling = .ok out := by
  -- once the config reads as a composition, the next one finds nothing to change
  have hfixed : ∀ (l : List Value) (doc' : Fields), readConfig L out = .ok (doc', l) →
      composeProviders name entry sibling l = l → (l.length = 1 → out = rendered) →
      (l.length ≠ 1 → doc' = composedDoc doc l) → chartOwnedConfig L out rendered entry sibling = .ok out := by
    intro l doc' hread hsame hone hmany
    rw [chartOwnedConfig, composeOwnConfig_eq hread hname h, hsame]
    dsimp only
    split_ifs with hlength hdoc
    · rw [hone hlength]
    · rfl
    · exact absurd (hmany hlength) hdoc
  have hrendered : readConfig L rendered = .ok (doc, [.map entry]) := by
    refine readConfig_eq_ok.mpr ⟨h.reads, h.version, ?_⟩
    rw [providerList, h.provider]
  cases hread : readConfig L existing with
  | error e =>
    rw [chartOwnedConfig_replaces hread] at hout
    cases hout
    refine hfixed [.map entry] doc hrendered ?_ (fun _ => rfl) fun hlength => absurd rfl hlength
    exact composeProviders_again (providerName_entry hname) []
  | ok r =>
    obtain ⟨cur, providers⟩ := r
    have hreads := chartOwnedConfig_reads hwrites hread hname h hout
    refine hfixed _ _ (readConfig_eq_ok.mpr ⟨hreads, composedDoc_version h _, composedDoc_providers _⟩)
      (composeProviders_again (providerName_entry hname) providers) (fun hlength => ?_) fun _ => rfl
    rw [chartOwnedConfig, composeOwnConfig_eq hread hname h] at hout
    dsimp only at hout
    rw [if_pos hlength] at hout
    cases hout
    rfl

/-- Whatever the file held before, the next pass finds nothing to change. -/
theorem chartOwnedConfig_again (hname : entryName entry = .ok name) (h : Renders L rendered entry doc)
    (hout : chartOwnedConfig L existing rendered entry sibling = .ok out) :
    chartOwnedConfig L out rendered entry sibling = .ok out :=
  chartOwnedConfig_fixed hwrites hname h hout

end

/-! ## What the records vouch for -/

/-- The entry is what the install of that name wrote, next to its binary and its record. -/
structure Vouched (L : Library) (d : Disk) (binDir name : GoString) (m : Fields) : Prop where
  named : m.string nameKey = some name
  valid : validProviderName name = true
  bridge : isBridgeProvider m = true
  executable : d.isExecutableHostFile (binaryPath binDir name) = true
  recorded : recordHolds L d binDir name (L.entryBytes m) = true

theorem siblingIn_iff (L : Library) (cfg : Config) (d : Disk) (binDir : GoString) (m : Fields) :
    siblingIn L cfg d binDir m = true ↔ ∃ name, name ≠ cfg.providerName ∧ Vouched L d binDir name m := by
  unfold siblingIn
  cases hname : m.string nameKey with
  | none =>
    refine iff_of_false Bool.false_ne_true ?_
    rintro ⟨name, -, h⟩
    rw [h.named] at hname
    cases hname
  | some name =>
    simp only [Bool.and_eq_true, decide_eq_true_eq]
    constructor
    · rintro ⟨⟨⟨⟨hne, hvalid⟩, hbridge⟩, hexec⟩, hrecord⟩
      exact ⟨name, hne, ⟨hname, hvalid, hbridge, hexec, hrecord⟩⟩
    · rintro ⟨name', hne, h⟩
      have heq : name' = name := by
        rw [h.named] at hname
        exact Option.some.inj hname
      subst heq
      exact ⟨⟨⟨⟨hne, h.valid⟩, h.bridge⟩, h.executable⟩, h.recorded⟩

section

variable {L : Library} {cfg : Config} {d : Disk} {binDir existing rendered out : GoString}
  {entry doc cur : Fields} {providers : List Value}

theorem ofOther_siblingIn_iff {p : Value} : ofOther cfg.providerName (siblingIn L cfg d binDir) p = true ↔
    ∃ name m, p = .map m ∧ name ≠ cfg.providerName ∧ Vouched L d binDir name m := by
  constructor
  · intro hother
    cases p with
    | map m =>
      simp only [ofOther, Value.asMap, Bool.and_eq_true] at hother
      obtain ⟨name, hne, hvouched⟩ := (siblingIn_iff L cfg d binDir m).mp hother.2
      exact ⟨name, m, rfl, hne, hvouched⟩
    | scalar s => cases hother
    | list l => cases hother
  · rintro ⟨name, m, rfl, hne, hvouched⟩
    have hname : providerName (.map m) = name := by
      rw [providerName, Value.asMap, Option.getD_some, hvouched.named, Option.getD_some]
    simp only [ofOther, Value.asMap, Bool.and_eq_true, decide_eq_true_eq, hname]
    exact ⟨hne, (siblingIn_iff L cfg d binDir m).mpr ⟨name, hne, hvouched⟩⟩

/-- A config that anyone may have written before the pass holds, after it, the install's entry and
what the records vouch for, and nothing else. -/
theorem chartOwnedConfig_exact (hwrites : ∀ m, (L.writeYaml m).isSome = true)
    (hname : entryName entry = .ok cfg.providerName) (h : Renders L rendered entry doc)
    (hread : readConfig L existing = .ok (cur, providers))
    (hout : chartOwnedConfig L existing rendered entry (siblingIn L cfg d binDir) = .ok out) :
    ∃ kept, L.readYaml out = some (composedDoc doc kept) ∧
      Composed cfg.providerName entry (siblingIn L cfg d binDir) providers kept ∧
      ∀ p ∈ kept, p = .map entry ∨ p ∈ providers ∧ ∃ name m, p = .map m ∧ name ≠ cfg.providerName ∧
        Vouched L d binDir name m := by
  have hcomposed : Composed cfg.providerName entry (siblingIn L cfg d binDir) providers _ :=
    composeProviders_composed (providerName_entry hname) providers
  refine ⟨_, chartOwnedConfig_reads hwrites hread hname h hout, hcomposed, fun p hp => ?_⟩
  by_cases hown : providerName p = cfg.providerName
  · exact .inl (hcomposed.own_of_mem hp hown)
  · obtain ⟨hprov, hother⟩ := hcomposed.other_of_mem hp hown
    exact .inr ⟨hprov, ofOther_siblingIn_iff.mp hother⟩

end

/-- Providers as someone who can write the config directory left them: another install's entry, a
changed copy of it, a changed own entry and one that no install wrote. -/
def plantedProviders : List Value :=
  [.str (lit "odd"), .map otherEntry, .map (sampleEntry (lit "own") (lit "https://evil")),
    .map (sampleEntry (lit "other") (lit "https://evil")), .map (sampleEntry (lit "planted") (lit "https://evil"))]

def plantedConfig : GoString := encodeDocument (sampleDoc plantedProviders)

def cleanedConfig : GoString := encodeDocument (sampleDoc [.map otherEntry, .map ownEntry])

theorem chartOwnedConfig_cleans : chartOwnedConfig plainLibrary plantedConfig renderedOwn ownEntry
    (siblingIn plainLibrary (sampleConfig .none (lit "own")) otherInstalled (lit "/b")) = .ok cleanedConfig := by
  decide +kernel

theorem renders_own : Renders plainLibrary renderedOwn ownEntry (sampleDoc [.map ownEntry]) :=
  ⟨by decide +kernel, by decide +kernel, by decide +kernel⟩

theorem chartOwnedConfig_exact_planted : ∃ kept,
    plainLibrary.readYaml cleanedConfig = some (composedDoc (sampleDoc [.map ownEntry]) kept) ∧
      Composed (lit "own") ownEntry
        (siblingIn plainLibrary (sampleConfig .none (lit "own")) otherInstalled (lit "/b")) plantedProviders kept ∧
      ∀ p ∈ kept, p = .map ownEntry ∨ p ∈ plantedProviders ∧ ∃ name m, p = .map m ∧ name ≠ lit "own" ∧
        Vouched plainLibrary otherInstalled (lit "/b") name m :=
  @chartOwnedConfig_exact plainLibrary (sampleConfig .none (lit "own")) otherInstalled (lit "/b") plantedConfig
    renderedOwn cleanedConfig ownEntry (sampleDoc [.map ownEntry]) (sampleDoc plantedProviders) plantedProviders
    (fun _ => rfl) (by decide +kernel) renders_own (by decide +kernel) chartOwnedConfig_cleans

theorem chartOwnedConfig_again_planted : chartOwnedConfig plainLibrary cleanedConfig renderedOwn ownEntry
    (siblingIn plainLibrary (sampleConfig .none (lit "own")) otherInstalled (lit "/b")) = .ok cleanedConfig :=
  @chartOwnedConfig_again plainLibrary (lit "own") plantedConfig renderedOwn cleanedConfig ownEntry
    (sampleDoc [.map ownEntry]) _ (fun _ => rfl) (by decide +kernel) renders_own chartOwnedConfig_cleans

end HarborBridge.Installer

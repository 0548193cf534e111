import Mathlib.Data.List.Lex
import HarborBridge.CredentialIsolation

/-! The HarborAccess that the data plane serves a token from, whatever order the cache lists the
objects in. -/
namespace HarborBridge

open GoStrings

/-! ## The order in which the data plane picks -/

theorem keyLE_iff (a b : HarborAccess) :
    keyLE a b ↔ a.key.ns < b.key.ns ∨ a.key.ns = b.key.ns ∧ a.key.name ≤ b.key.name := by
  unfold keyLE
  by_cases hns : b.key.ns = a.key.ns
  · rw [if_neg (not_not.mpr hns), hns, not_lt]
    constructor
    · intro hname
      exact .inr ⟨rfl, hname⟩
    · rintro (hlt | ⟨-, hname⟩)
      · exact absurd hlt (lt_irrefl _)
      · exact hname
  · rw [if_pos hns, not_lt]
    constructor
    · intro hle
      exact .inl (lt_of_le_of_ne hle (Ne.symm hns))
    · rintro (hlt | ⟨heq, -⟩)
      · exact hlt.le
      · exact absurd heq.symm hns

theorem keyLE_total (a b : HarborAccess) : keyLE a b ∨ keyLE b a := by
  rw [keyLE_iff, keyLE_iff]
  rcases lt_trichotomy a.key.ns b.key.ns with hlt | heq | hgt
  · exact .inl (.inl hlt)
  · rcases le_total a.key.name b.key.name with hle | hge
    · exact .inl (.inr ⟨heq, hle⟩)
    · exact .inr (.inr ⟨heq.symm, hge⟩)
  · exact .inr (.inl hgt)

theorem keyLE_trans {a b c : HarborAccess} (hab : keyLE a b) (hbc : keyLE b c) : keyLE a c := by
  rw [keyLE_iff] at *
  rcases hab with hab | ⟨hab, hname⟩
  · rcases hbc with hbc | ⟨hbc, -⟩
    · exact .inl (hab.trans hbc)
    · exact .inl (hbc ▸ hab)
  · rcases hbc with hbc | ⟨hbc, hname'⟩
    · exact .inl (hab ▸ hbc)
    · exact .inr ⟨hab.trans hbc, hname.trans hname'⟩

/-- Objects of one key are one object, so the order picks one. -/
theorem keyLE_antisymm {a b : HarborAccess} (hab : keyLE a b) (hba : keyLE b a) :
    a.key.ns = b.key.ns ∧ a.key.name = b.key.name := by
  rw [keyLE_iff] at hab hba
  rcases hab with hab | ⟨hab, hname⟩
  · rcases hba with hba | ⟨hba, -⟩
    · exact absurd (hab.trans hba) (lt_irrefl _)
    · exact absurd (hba ▸ hab) (lt_irrefl _)
  · rcases hba with hba | ⟨-, hname'⟩
    · exact absurd (hab ▸ hba) (lt_irrefl _)
    · exact ⟨hab, le_antisymm hname hname'⟩

instance : Std.Total fun a b : HarborAccess × GoString => keyLE a.1 b.1 :=
  ⟨fun a b => keyLE_total a.1 b.1⟩

instance : IsTrans (HarborAccess × GoString) fun a b => keyLE a.1 b.1 :=
  ⟨fun _ _ _ => keyLE_trans⟩

def Candidate (config : HandlerConfig) (claims : Claims) (ha : HarborAccess) : Prop :=
  ha.deleting = false ∧ eligible config claims ha = true ∧
    ha.spec.trustPolicy.audience ∈ claims.audience

theorem matchedAudience_isSome {config : HandlerConfig} {claims : Claims} {ha : HarborAccess}
    (he : eligible config claims ha = true) :
    (∃ aud, matchedAudience claims ha = some aud) ↔
      ha.spec.trustPolicy.audience ∈ claims.audience := by
  have hne : ha.spec.trustPolicy.audience ≠ [] := by
    simp only [eligible, decide_eq_true_eq] at he
    exact he.1
  constructor
  · rintro ⟨aud, haud⟩
    have hsome := List.find?_some haud
    simp only [decide_eq_true_eq] at hsome
    exact hsome.2 ▸ List.mem_of_find?_eq_some haud
  · intro hmem
    apply Option.isSome_iff_exists.mp
    rw [matchedAudience, List.find?_isSome]
    exact ⟨_, hmem, by simpa using hne⟩

/-- The data plane serves a token from the least of the candidates. -/
theorem findHarborAccess_least (config : HandlerConfig) (items : List HarborAccess)
    (claims : Claims) (ha : HarborAccess) (aud : GoString)
    (h : (findHarborAccess config items claims).matched = some (ha, aud)) :
    ∀ ha' ∈ items, Candidate config claims ha' → keyLE ha ha' := by
  intro ha' hmem hcandidate
  obtain ⟨hcurrent, he, haud⟩ := hcandidate
  obtain ⟨aud', haud'⟩ := (matchedAudience_isSome he).mpr haud
  unfold findHarborAccess at h
  dsimp only at h
  split at h
  · next m rest hsort =>
    obtain rfl := Option.some.inj h
    have hsubject : harborAccessSubject ha' = claims.subject := by
      simp only [eligible, decide_eq_true_eq] at he
      exact he.2.2.2.1
    have hin : (ha', aud') ∈ (ha, aud) :: rest := by
      rw [← hsort, List.mem_insertionSort, List.mem_filter, mem_matchesOf, List.mem_filter]
      exact ⟨⟨⟨hmem, by simpa using hsubject⟩, he, haud'⟩, by simpa using hcurrent⟩
    have hsorted := List.pairwise_insertionSort (fun a b : HarborAccess × GoString => keyLE a.1 b.1)
      ((matchesOf config claims (items.filter fun ha => harborAccessSubject ha = claims.subject)).filter
        fun m => !m.1.deleting)
    rw [hsort] at hsorted
    rcases List.mem_cons.mp hin with heq | hrest
    · have hsame : ha' = ha := congrArg Prod.fst heq
      rw [hsame]
      exact (keyLE_total ha ha).elim id id
    · exact List.rel_of_pairwise_cons hsorted hrest
  · cases h

/-- There is a candidate, so one is selected. -/
theorem findHarborAccess_some (config : HandlerConfig) (items : List HarborAccess)
    (claims : Claims) (ha : HarborAccess) (hmem : ha ∈ items)
    (hcandidate : Candidate config claims ha) :
    ∃ ha' aud, (findHarborAccess config items claims).matched = some (ha', aud) := by
  obtain ⟨hcurrent, he, haud⟩ := hcandidate
  obtain ⟨aud, haud⟩ := (matchedAudience_isSome he).mpr haud
  have hsubject : harborAccessSubject ha = claims.subject := by
    simp only [eligible, decide_eq_true_eq] at he
    exact he.2.2.2.1
  unfold findHarborAccess
  dsimp only
  split
  · next m rest hsort => exact ⟨m.1, m.2, rfl⟩
  · next hsort =>
    exfalso
    have hin : (ha, aud) ∈ ([] : List (HarborAccess × GoString)) := by
      rw [← hsort, List.mem_insertionSort, List.mem_filter, mem_matchesOf, List.mem_filter]
      exact ⟨⟨⟨hmem, by simpa using hsubject⟩, he, haud⟩, by simpa using hcurrent⟩
    cases hin

/-! ## The selection is a function of the sets -/

/-- A token may be served from the HarborAccess, if that is not being deleted. -/
structure Qualifies (config : HandlerConfig) (claims : Claims) (ha : HarborAccess) : Prop where
  audience_ne : ha.spec.trustPolicy.audience ≠ []
  audience : ha.spec.trustPolicy.audience = config.audience
  listed : ha.spec.trustPolicy.audience ∈ claims.audience
  issuer_ne : ha.spec.trustPolicy.issuer ≠ []
  issuer : ha.spec.trustPolicy.issuer = claims.issuer
  subject : harborAccessSubject ha = claims.subject

/-- The least element of a list comes first when the list is sorted. -/
theorem head?_insertionSort_eq_some {α : Type} (r : α → α → Prop) [DecidableRel r] [Std.Total r]
    [IsTrans α r] {l : List α} (hanti : ∀ a ∈ l, ∀ b ∈ l, r a b → r b a → a = b) (m : α) :
    (l.insertionSort r).head? = some m ↔ m ∈ l ∧ ∀ x ∈ l, r m x := by
  have hleast : ∀ y rest, l.insertionSort r = y :: rest → y ∈ l ∧ ∀ x ∈ l, r y x := by
    intro y rest hsort
    have hsorted := List.pairwise_insertionSort r l
    rw [hsort] at hsorted
    refine ⟨(List.mem_insertionSort r).mp (hsort ▸ List.mem_cons_self), fun x hx => ?_⟩
    rw [← List.mem_insertionSort r, hsort] at hx
    rcases List.mem_cons.mp hx with rfl | hx
    · exact (Std.Total.total (r := r) x x).elim id id
    · exact List.rel_of_pairwise_cons hsorted hx
  constructor
  · intro h
    obtain ⟨rest, hsort⟩ := List.head?_eq_some_iff.mp h
    exact hleast m rest hsort
  · rintro ⟨hm, hle⟩
    obtain ⟨y, rest, hsort⟩ := List.exists_cons_of_ne_nil
      (List.ne_nil_of_mem ((List.mem_insertionSort r).mpr hm))
    obtain ⟨hy, hley⟩ := hleast y rest hsort
    rw [hsort, List.head?_cons, hanti y hy m hm (hley m hm) (hle y hy)]

section Selection

variable {config : HandlerConfig} {claims : Claims} {items : List HarborAccess}

def picks (config : HandlerConfig) (claims : Claims) (items : List HarborAccess) (deleting : Bool) :
    List (HarborAccess × GoString) :=
  ((matchesOf config claims (items.filter fun ha => harborAccessSubject ha = claims.subject)).filter
    fun m => m.1.deleting = deleting).insertionSort fun a b => keyLE a.1 b.1

theorem matchedAudience_eq_some {ha : HarborAccess} {aud : GoString} :
    matchedAudience claims ha = some aud ↔ ha.spec.trustPolicy.audience ≠ [] ∧
      ha.spec.trustPolicy.audience ∈ claims.audience ∧ aud = ha.spec.trustPolicy.audience := by
  constructor
  · intro h
    have hsome := List.find?_some h
    obtain ⟨hne, heq⟩ := of_decide_eq_true hsome
    exact ⟨heq ▸ hne, heq ▸ List.mem_of_find?_eq_some h, heq⟩
  · rintro ⟨hne, hmem, rfl⟩
    have hfound : (matchedAudience claims ha).isSome = true := by
      rw [matchedAudience, List.find?_isSome]
      exact ⟨_, hmem, decide_eq_true ⟨hne, rfl⟩⟩
    obtain ⟨aud, haud⟩ := Option.isSome_iff_exists.mp hfound
    have hsome := List.find?_some haud
    rw [haud, (of_decide_eq_true hsome).2]

theorem mem_picks {deleting : Bool} {ha : HarborAccess} {aud : GoString} :
    (ha, aud) ∈ picks config claims items deleting ↔ ha ∈ items ∧ ha.deleting = deleting ∧
      Qualifies config claims ha ∧ aud = ha.spec.trustPolicy.audience := by
  unfold picks
  rw [List.mem_insertionSort, List.mem_filter, mem_matchesOf, List.mem_filter,
    matchedAudience_eq_some]
  simp only [eligible, decide_eq_true_eq]
  constructor
  · rintro ⟨⟨⟨hmem, -⟩, ⟨hne, hissuer, haudience, hsubject, heq⟩, -, hlisted, haud⟩, hdeleting⟩
    exact ⟨hmem, hdeleting, ⟨hne, haudience, hlisted, hissuer, heq, hsubject⟩, haud⟩
  · rintro ⟨hmem, hdeleting, h, haud⟩
    exact ⟨⟨⟨hmem, h.subject⟩, ⟨h.audience_ne, h.issuer_ne, h.audience, h.subject, h.issuer⟩,
      h.audience_ne, h.listed, haud⟩, hdeleting⟩

theorem findHarborAccess_eq : findHarborAccess config items claims =
    match picks config claims items false with
    | m :: _ => ⟨some m, none⟩
    | [] => ⟨none, (picks config claims items true).head?.map (·.1)⟩ := by
  have hcurrent : ∀ ms : List (HarborAccess × GoString),
      (ms.filter fun m => !m.1.deleting) = ms.filter fun m => m.1.deleting = false := by
    intro ms
    refine List.filter_congr fun m _ => ?_
    cases m.1.deleting <;> rfl
  have hdeleting : ∀ ms : List (HarborAccess × GoString),
      (ms.filter fun m => m.1.deleting) = ms.filter fun m => m.1.deleting = true := by
    intro ms
    refine List.filter_congr fun m _ => ?_
    cases m.1.deleting <;> rfl
  simp only [picks, ← hcurrent, ← hdeleting]
  rfl

/-- The least of the objects, those that are being deleted or the others. -/
def LeastOf (config : HandlerConfig) (claims : Claims) (items : List HarborAccess) (deleting : Bool)
    (ha : HarborAccess) : Prop :=
  ha ∈ items ∧ ha.deleting = deleting ∧ Qualifies config claims ha ∧
    ∀ other ∈ items, other.deleting = deleting → Qualifies config claims other → keyLE ha other

def DistinctKeys (items : List HarborAccess) : Prop := (items.map (·.key)).Nodup

theorem DistinctKeys.eq (h : DistinctKeys items) {a b : HarborAccess} (ha : a ∈ items)
    (hb : b ∈ items) (hkey : a.key = b.key) : a = b :=
  List.inj_on_of_nodup_map h ha hb hkey

theorem head?_picks (h : DistinctKeys items) {deleting : Bool} {ha : HarborAccess} {aud : GoString} :
    (picks config claims items deleting).head? = some (ha, aud) ↔
      LeastOf config claims items deleting ha ∧ aud = ha.spec.trustPolicy.audience := by
  have hmem : ∀ m, m ∈ (matchesOf config claims (items.filter fun ha =>
      harborAccessSubject ha = claims.subject)).filter (fun m => m.1.deleting = deleting) ↔
      m ∈ picks config claims items deleting := fun m => (List.mem_insertionSort _).symm
  unfold picks
  rw [head?_insertionSort_eq_some]
  · simp only [hmem, Prod.forall, mem_picks, LeastOf]
    constructor
    · rintro ⟨⟨hitem, hdeleting, hqualifies, haud⟩, hle⟩
      exact ⟨⟨hitem, hdeleting, hqualifies, fun other hother hdeleting' hqualifies' =>
        hle other _ ⟨hother, hdeleting', hqualifies', rfl⟩⟩, haud⟩
    · rintro ⟨⟨hitem, hdeleting, hqualifies, hle⟩, haud⟩
      exact ⟨⟨hitem, hdeleting, hqualifies, haud⟩, fun other _ hother =>
        hle other hother.1 hother.2.1 hother.2.2.1⟩
  · rintro ⟨a, aud⟩ ha ⟨b, aud'⟩ hb hab hba
    obtain ⟨hitem, -, -, rfl⟩ := mem_picks.mp ((hmem _).mp ha)
    obtain ⟨hitem', -, -, rfl⟩ := mem_picks.mp ((hmem _).mp hb)
    obtain ⟨hns, hname⟩ := keyLE_antisymm hab hba
    obtain rfl := h.eq hitem hitem' ((ObjectKey.ext_iff' _ _).mpr ⟨hns, hname⟩)
    rfl

/-- The object that is selected. -/
theorem findHarborAccess_matched_iff (h : DistinctKeys items) {ha : HarborAccess} {aud : GoString} :
    (findHarborAccess config items claims).matched = some (ha, aud) ↔
      LeastOf config claims items false ha ∧ aud = ha.spec.trustPolicy.audience := by
  rw [← head?_picks h, findHarborAccess_eq]
  cases picks config claims items false <;> simp

/-- The object that is reported because it is being deleted. -/
theorem findHarborAccess_deleting_iff (h : DistinctKeys items) {ha : HarborAccess} :
    (findHarborAccess config items claims).deleting = some ha ↔
      (∀ other ∈ items, other.deleting = false → ¬ Qualifies config claims other) ∧
        LeastOf config claims items true ha := by
  have hnone : picks config claims items false = [] ↔
      ∀ other ∈ items, other.deleting = false → ¬ Qualifies config claims other := by
    rw [List.eq_nil_iff_forall_not_mem]
    constructor
    · intro hnot other hother hcurrent hqualifies
      exact hnot (other, _) (mem_picks.mpr ⟨hother, hcurrent, hqualifies, rfl⟩)
    · rintro hnot ⟨other, aud⟩ hmem
      obtain ⟨hother, hcurrent, hqualifies, -⟩ := mem_picks.mp hmem
      exact hnot other hother hcurrent hqualifies
  have hfirst : (picks config claims items true).head?.map (·.1) = some ha ↔
      LeastOf config claims items true ha := by
    rw [Option.map_eq_some_iff]
    constructor
    · rintro ⟨⟨ha, aud⟩, hhead, rfl⟩
      exact ((head?_picks h).mp hhead).1
    · intro hleast
      exact ⟨(ha, _), (head?_picks h).mpr ⟨hleast, rfl⟩, rfl⟩
  rw [← hnone, ← hfirst, findHarborAccess_eq]
  cases picks config claims items false <;> simp

end Selection

/-- Claims that differ in the order and the number of the audiences only. -/
structure SameClaims (claims claims' : Claims) : Prop where
  subject : claims'.subject = claims.subject
  issuer : claims'.issuer = claims.issuer
  audience : ∀ aud, aud ∈ claims'.audience ↔ aud ∈ claims.audience

theorem SameClaims.qualifies {claims claims' : Claims} (h : SameClaims claims claims')
    (config : HandlerConfig) (ha : HarborAccess) :
    Qualifies config claims' ha ↔ Qualifies config claims ha := by
  constructor
  · intro hq
    exact ⟨hq.audience_ne, hq.audience, (h.audience _).mp hq.listed, hq.issuer_ne,
      hq.issuer.trans h.issuer, hq.subject.trans h.subject⟩
  · intro hq
    exact ⟨hq.audience_ne, hq.audience, (h.audience _).mpr hq.listed, hq.issuer_ne,
      hq.issuer.trans h.issuer.symm, hq.subject.trans h.subject.symm⟩

/-- The selection depends neither on the order of the listed objects nor on the order and the
number of the token's audiences. It is the least of the objects that qualify and are not being
deleted; one that is being deleted is reported when there is none. -/
theorem selection_ignores_order (config : HandlerConfig) (items : List HarborAccess)
    (claims : Claims) (hkeys : DistinctKeys items) :
    (∀ items' claims', items.Perm items' → SameClaims claims claims' →
      findHarborAccess config items' claims' = findHarborAccess config items claims) ∧
    (∀ ha aud, (findHarborAccess config items claims).matched = some (ha, aud) ↔
      LeastOf config claims items false ha ∧ aud = ha.spec.trustPolicy.audience) ∧
    ∀ ha, (findHarborAccess config items claims).deleting = some ha ↔
      (∀ other ∈ items, other.deleting = false → ¬ Qualifies config claims other) ∧
        LeastOf config claims items true ha := by
  refine ⟨fun items' claims' hperm hclaims => ?_, fun ha aud => findHarborAccess_matched_iff hkeys,
    fun ha => findHarborAccess_deleting_iff hkeys⟩
  have hkeys' : DistinctKeys items' := (hperm.map _).nodup_iff.mp hkeys
  have hleast : ∀ deleting ha, LeastOf config claims' items' deleting ha ↔
      LeastOf config claims items deleting ha := by
    intro deleting ha
    simp only [LeastOf, hperm.mem_iff, hclaims.qualifies]
  have hmatched : (findHarborAccess config items' claims').matched =
      (findHarborAccess config items claims).matched := by
    refine Option.ext fun m => ?_
    obtain ⟨ha, aud⟩ := m
    rw [findHarborAccess_matched_iff hkeys', findHarborAccess_matched_iff hkeys, hleast]
  have hdeleting : (findHarborAccess config items' claims').deleting =
      (findHarborAccess config items claims).deleting := by
    refine Option.ext fun ha => ?_
    rw [findHarborAccess_deleting_iff hkeys', findHarborAccess_deleting_iff hkeys, hleast]
    simp only [hperm.mem_iff, hclaims.qualifies]
  exact Found.mk.injEq .. ▸ ⟨hmatched, hdeleting⟩

def siblingKey : ObjectKey :=
  { sampleKey with name := lit "web", name_valid := by decide, name_length := by decide }

/-- Two objects for one ServiceAccount, in either order. -/
theorem selection_ignores_order_two :
    findHarborAccess ⟨lit "bridge", true, lit "harbor", none⟩
      [sampleAccess siblingKey ⟨lit "team", lit "app"⟩, sampleAccess sampleKey ⟨lit "team", lit "app"⟩]
      ⟨lit "system:serviceaccount:team:app", lit "https://issuer", [lit "harbor", lit "harbor"]⟩ =
    findHarborAccess ⟨lit "bridge", true, lit "harbor", none⟩
      [sampleAccess sampleKey ⟨lit "team", lit "app"⟩, sampleAccess siblingKey ⟨lit "team", lit "app"⟩]
      ⟨lit "system:serviceaccount:team:app", lit "https://issuer", [lit "harbor"]⟩ := by
  refine (selection_ignores_order _ _ _ ?_).1 _ _ (List.Perm.swap _ _ _) ⟨rfl, rfl, fun aud => ?_⟩
  · unfold DistinctKeys
    decide
  · simp

/-- An object without an issuer, which the apiserver admits only when it does not validate. -/
def issuerless : HarborAccess :=
  let ha := sampleAccess sampleKey ⟨lit "team", lit "app"⟩
  { ha with deleting := true, spec := { ha.spec with trustPolicy := ⟨[], lit "harbor"⟩ } }

/-- A token without an issuer and an object without one that is being deleted: it is not
reported, although issuer, subject and audience are equal. -/
theorem empty_issuer_is_not_reported : ∃ (config : HandlerConfig) (claims : Claims),
    issuerless.deleting = true ∧ issuerless.spec.trustPolicy.audience ≠ [] ∧
    issuerless.spec.trustPolicy.audience = config.audience ∧
    issuerless.spec.trustPolicy.audience ∈ claims.audience ∧
    issuerless.spec.trustPolicy.issuer = claims.issuer ∧
    harborAccessSubject issuerless = claims.subject ∧
    (findHarborAccess config [issuerless] claims).matched = none ∧
    (findHarborAccess config [issuerless] claims).deleting = none :=
  ⟨⟨lit "bridge", true, lit "harbor", none⟩,
    ⟨lit "system:serviceaccount:team:app", [], [lit "harbor"]⟩, rfl, by decide, rfl, by decide, rfl,
    by decide, by decide, by decide⟩

end HarborBridge

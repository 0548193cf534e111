import HarborBridge.Lib.GoText
import HarborBridge.Lib.Rfc3339

/-!
# Why a token is refused

Package dataplane: `Validate` of oidc.go with the errors it returns, and the label that
`classifyOIDCError` of metrics.go counts them under. An error is its text and the sentinel
errors that `errors.Is` finds in it. What go-oidc answers is data; the two of its texts that
quote what the sender chose are written out.
-/

namespace HarborBridge.TokenErrors

open GoStrings GoText Rfc3339

inductive Sentinel where
  | invalidToken
  | signingKeysUnavailable
  | tokenLifetime
  | tokenNotPodBound
  deriving DecidableEq

def Sentinel.text : Sentinel → GoString
  | invalidToken => lit "invalid token"
  | signingKeysUnavailable => lit "token signing keys unavailable"
  | tokenLifetime => lit "token lifetime not accepted"
  | tokenNotPodBound => lit "token not bound to a pod"

structure GoError where
  text : GoString
  sentinels : List Sentinel
  deriving DecidableEq

namespace GoError

/-- `errors.New`, or an error of another package. -/
def new (text : GoString) : GoError := ⟨text, []⟩

def of (s : Sentinel) : GoError := ⟨s.text, [s]⟩

/-- The format `%w: %w`. -/
def wrap (outer inner : GoError) : GoError :=
  ⟨outer.text ++ lit ": " ++ inner.text, outer.sentinels ++ inner.sentinels⟩

def isA (e : GoError) (s : Sentinel) : Bool := decide (s ∈ e.sentinels)

end GoError

/-! ## The validator -/

/-- What go-oidc returns for a token that it verified. -/
structure IDToken where
  issuer : GoString
  expiry : Int
  /-- None for the zero time, which go-oidc leaves for a token without iat. -/
  issuedAt : Option Int

structure RawClaims where
  sub : GoString
  aud : List GoString
  podName : GoString
  podUID : GoString
  nodeName : GoString

structure Claims where
  subject : GoString
  audience : List GoString
  issuer : GoString
  expiry : Int
  issuedAt : Option Int
  pod : GoString
  podUID : GoString
  node : GoString

def maxIssuedAtSkew : Int := 5 * minute

/-- How the package time writes a Duration. -/
abbrev ShowDuration := Int → GoString

def checkLifetime (showDuration : ShowDuration) (iat : Option Int) (exp now maxLifetime : Int) :
    Except GoError Unit :=
  match iat with
  | none => .error ((GoError.of .tokenLifetime).wrap (.new (lit "no iat claim")))
  | some iat =>
    if now + maxIssuedAtSkew < iat then
      .error ((GoError.of .tokenLifetime).wrap
        (.new (lit "issued in the future (iat " ++ format iat ++ lit ")")))
    else if maxLifetime < timeSub exp iat then
      .error ((GoError.of .tokenLifetime).wrap
        (.new (lit "lifetime " ++ showDuration (timeSub exp iat) ++ lit " exceeds the maximum " ++
          showDuration maxLifetime)))
    else .ok ()

/-- The verifier of go-oidc with the key set: what `Verify` and `Claims` return for a token,
and whether the key set noted that it could not fetch the keys. -/
structure Verifier where
  verify : GoString → Except GoError IDToken
  keysUnavailable : GoString → Bool
  claims : GoString → Except GoError RawClaims

structure Validator where
  verifier : Verifier
  maxLifetime : Int
  allowNonPodBoundTokens : Bool

def validate (showDuration : ShowDuration) (v : Validator) (now : Int) (rawToken : GoString) :
    Except GoError Claims :=
  match v.verifier.verify rawToken with
  | .error err =>
    if v.verifier.keysUnavailable rawToken then
      .error ((GoError.of .signingKeysUnavailable).wrap err)
    else .error ((GoError.of .invalidToken).wrap err)
  | .ok idToken =>
    match v.verifier.claims rawToken with
    | .error err =>
      .error (((GoError.of .invalidToken).wrap (.new (lit "parse claims"))).wrap err)
    | .ok raw =>
      match checkLifetime showDuration idToken.issuedAt idToken.expiry now v.maxLifetime with
      | .error err => .error ((GoError.of .invalidToken).wrap err)
      | .ok () =>
        if !v.allowNonPodBoundTokens && (raw.podName == [] || raw.podUID == []) then
          .error (((GoError.of .invalidToken).wrap (.of .tokenNotPodBound)).wrap
            (.new (lit "no kubernetes.io pod name and uid")))
        else .ok {
          subject := raw.sub
          audience := raw.aud
          issuer := idToken.issuer
          expiry := idToken.expiry
          issuedAt := idToken.issuedAt
          pod := raw.podName
          podUID := raw.podUID
          node := raw.nodeName }

/-! ## The classifier -/

/-- The values of the label reason. -/
inductive OIDCReason where
  | expired
  | badSignature
  | wrongIssuer
  | malformed
  | excessiveLifetime
  | notPodBound
  | keysUnavailable
  | other
  deriving DecidableEq

/-- The tests of the text, in the order they are made. -/
def classifyText (s : GoString) : OIDCReason :=
  if contains s (lit "malformed") then .malformed
  else if contains s (lit "expired") then .expired
  else if contains s (lit "signature") then .badSignature
  else if contains s (lit "different provider") || contains s (lit "issuer") then .wrongIssuer
  else if contains s (lit "parse") || contains s (lit "invalid json") then .malformed
  else .other

def classifyOIDCError (u : Unicode) : Option GoError → OIDCReason
  | none => .other
  | some err =>
    if err.isA .tokenLifetime then .excessiveLifetime
    else if err.isA .tokenNotPodBound then .notPodBound
    else if err.isA .signingKeysUnavailable then .keysUnavailable
    else classifyText (toLower u err.text)

/-! ## The texts that quote the sender -/

/-- The errors of go-oidc that quote the token: its alg header, next to the algorithms that
are accepted, or its iss claim, next to the configured issuer. -/
inductive Refusal where
  | algorithm (alg : GoString) (expected : List GoString)
  | issuer (expected got : GoString)

/-- The format `%q` of a list of strings. -/
def quoteList (u : Unicode) (ss : List GoString) : GoString :=
  91 :: [32].intercalate (ss.map (quote u)) ++ [93]

def algorithmText : GoString := lit "oidc: malformed jwt: unexpected signature algorithm "

def issuerText : GoString := lit "oidc: id token issued by a different provider, expected "

def Refusal.error (u : Unicode) : Refusal → GoError
  | algorithm alg expected =>
    .new (algorithmText ++ quote u alg ++ lit "; expected " ++ quoteList u expected)
  | issuer expected got => .new (issuerText ++ quote u expected ++ lit " got " ++ quote u got)

/-- The label of a refusal, whatever the sender put into the token. -/
def Refusal.reason : Refusal → OIDCReason
  | algorithm _ _ => .malformed
  | issuer _ _ => .wrongIssuer

/-- The words that `classifyOIDCError` looks for before the issuer. -/
def earlierWords : List GoString := [lit "malformed", lit "expired", lit "signature"]

/-- Quoted and lowered, the text has none of the words. -/
def Plain (u : Unicode) (s : GoString) : Prop := ∀ w ∈ earlierWords, ¬ w <:+: toLower u (escaped u s)

/-- The condition on the texts a refusal quotes. -/
def Refusal.Plain (u : Unicode) : Refusal → Prop
  | algorithm _ _ => True
  | issuer expected got => TokenErrors.Plain u expected ∧ TokenErrors.Plain u got

/-- The token that the verifier refuses for this reason. -/
def Refused (u : Unicode) (v : Validator) (rawToken : GoString) (r : Refusal) : Prop :=
  v.verifier.verify rawToken = .error (r.error u) ∧ v.verifier.keysUnavailable rawToken = false

theorem validate_refused {u : Unicode} {v : Validator} {rawToken : GoString} {r : Refusal}
    (h : Refused u v rawToken r) (showDuration : ShowDuration) (now : Int) :
    validate showDuration v now rawToken = .error ((GoError.of .invalidToken).wrap (r.error u)) := by
  simp [validate, h.1, h.2]

def invalidText : GoString := Sentinel.invalidToken.text ++ lit ": "

theorem classify_invalid (u : Unicode) (r : Refusal) :
    classifyOIDCError u (some ((GoError.of .invalidToken).wrap (r.error u))) =
      classifyText (toLower u (invalidText ++ (r.error u).text)) := by
  cases r <;>
    simp [classifyOIDCError, GoError.isA, GoError.wrap, GoError.of, GoError.new, Refusal.error,
      invalidText]

theorem lowered_issuer (u : Unicode) (expected got : GoString) :
    toLower u (invalidText ++ ((Refusal.issuer expected got).error u).text) =
      (invalidText ++ issuerText) ++ 34 :: (toLower u (escaped u expected) ++
        34 :: (lit " got " ++ 34 :: (toLower u (escaped u got) ++ 34 :: []))) := by
  have htext : invalidText ++ ((Refusal.issuer expected got).error u).text =
      (invalidText ++ issuerText) ++ 34 :: (escaped u expected ++
        34 :: (lit " got " ++ 34 :: (escaped u got ++ 34 :: []))) := by
    simp [Refusal.error, GoError.new, quote]
  rw [htext, toLower_append_quote, toLower_append_quote, toLower_append_quote,
    toLower_append_quote, toLower_lowerCase u (s := invalidText ++ issuerText) (by decide),
    toLower_lowerCase u (s := lit " got ") (by decide)]
  rfl

/-- The fixed parts of that message, each with none of the words before the issuer. -/
theorem earlierWords_fixed : ∀ w ∈ earlierWords, 34 ∉ w ∧ ¬ w <:+: invalidText ++ issuerText ∧
    ¬ w <:+: lit " got " ∧ ¬ w <:+: ([] : GoString) := by
  decide +kernel

/-- The words before the issuer decide, and they come from the quotes only. -/
theorem earlierWord_iff {u : Unicode} {expected got w : GoString} (hw : w ∈ earlierWords) :
    w <:+: toLower u (invalidText ++ ((Refusal.issuer expected got).error u).text) ↔
      w <:+: toLower u (escaped u expected) ∨ w <:+: toLower u (escaped u got) := by
  obtain ⟨hquote, hfixed, hbetween, hend⟩ := earlierWords_fixed w hw
  rw [lowered_issuer]
  simp only [infix_append_cons hquote]
  tauto

theorem different_provider (u : Unicode) (expected got : GoString) :
    contains (toLower u (invalidText ++ ((Refusal.issuer expected got).error u).text))
      (lit "different provider") = true := by
  rw [lowered_issuer]
  simp only [contains, decide_eq_true_eq,
    infix_append_cons (show (34 : UInt8) ∉ lit "different provider" by decide)]
  exact .inl (by decide +kernel)

/-- A text that names the provider is counted under the issuer exactly if it has none of the
words that are looked for before. -/
theorem classifyText_wrongIssuer {s : GoString} (hissuer : contains s (lit "different provider") = true) :
    classifyText s = .wrongIssuer ↔ ∀ w ∈ earlierWords, ¬ w <:+: s := by
  have hwords : (∀ w ∈ earlierWords, ¬ w <:+: s) ↔ contains s (lit "malformed") = false ∧
      contains s (lit "expired") = false ∧ contains s (lit "signature") = false := by
    simp [earlierWords, contains]
  rw [hwords]
  unfold classifyText
  cases contains s (lit "malformed") <;> cases contains s (lit "expired") <;>
    cases contains s (lit "signature") <;> simp [hissuer]

theorem classify_issuer (u : Unicode) (expected got : GoString) :
    classifyText (toLower u (invalidText ++ ((Refusal.issuer expected got).error u).text)) =
      .wrongIssuer ↔ Plain u expected ∧ Plain u got := by
  rw [classifyText_wrongIssuer (different_provider u expected got)]
  constructor
  · intro h
    exact ⟨fun w hw hin => h w hw ((earlierWord_iff hw).mpr (.inl hin)),
      fun w hw hin => h w hw ((earlierWord_iff hw).mpr (.inr hin))⟩
  · rintro ⟨hexpected, hgot⟩ w hw hin
    rcases (earlierWord_iff hw).mp hin with h | h
    · exact hexpected w hw h
    · exact hgot w hw h

theorem classify_algorithm (u : Unicode) (alg : GoString) (expected : List GoString) :
    classifyText (toLower u (invalidText ++ ((Refusal.algorithm alg expected).error u).text)) =
      .malformed := by
  have htext : invalidText ++ ((Refusal.algorithm alg expected).error u).text =
      (invalidText ++ algorithmText) ++ 34 :: (escaped u alg ++ 34 :: (lit "; expected " ++
        quoteList u expected)) := by
    simp [Refusal.error, GoError.new, quote]
  have hword : contains (toLower u (invalidText ++ ((Refusal.algorithm alg expected).error u).text))
      (lit "malformed") = true := by
    rw [htext, toLower_append_quote, toLower_lowerCase u (by decide)]
    simp only [contains, decide_eq_true_eq,
      infix_append_cons (show (34 : UInt8) ∉ lit "malformed" by decide)]
    exact .inl (by decide +kernel)
  simp [classifyText, hword]

/-- A refused token is counted under the label of its refusal exactly if the two issuers that
the message quotes have none of the words that are looked for before the issuer. The alg
header may be any text. -/
theorem classify_refused (u : Unicode) (showDuration : ShowDuration) (v : Validator) (now : Int)
    (rawToken : GoString) (r : Refusal) (hrefused : Refused u v rawToken r) :
    ∃ err, validate showDuration v now rawToken = .error err ∧
      (classifyOIDCError u (some err) = r.reason ↔ r.Plain u) := by
  refine ⟨_, validate_refused hrefused showDuration now, ?_⟩
  rw [classify_invalid]
  cases r with
  | algorithm alg expected => exact iff_of_true (classify_algorithm u alg expected) trivial
  | issuer expected got => exact classify_issuer u expected got

def refusing (u : Unicode) (r : Refusal) : Validator where
  verifier := { verify _ := .error (r.error u), keysUnavailable _ := false, claims _ := .error (.new []) }
  maxLifetime := hour
  allowNonPodBoundTokens := false

theorem refusing_refused (u : Unicode) (r : Refusal) (rawToken : GoString) :
    Refused u (refusing u r) rawToken r :=
  ⟨rfl, rfl⟩

def clusterIssuer : GoString := lit "https://kubernetes.default.svc.cluster.local"

theorem plain_of_lowerCase (u : Unicode) {s : GoString} (hplain : plainText s = true)
    (hcase : lowerCase s = true) : toLower u (escaped u s) = s := by
  rw [escaped_plainText u hplain, toLower_lowerCase u hcase]

theorem clusterIssuer_plain (u : Unicode) : Plain u clusterIssuer := by
  unfold Plain
  rw [plain_of_lowerCase u (by decide) (by decide)]
  decide +kernel

theorem other_plain (u : Unicode) : Plain u (lit "https://other") := by
  unfold Plain
  rw [plain_of_lowerCase u (by decide) (by decide)]
  decide +kernel

def asciiTables : Unicode := ⟨id, fun _ => false⟩

theorem classify_refused_other_cluster :
    ∃ err, validate (fun _ => [])
        (refusing asciiTables (.issuer clusterIssuer (lit "https://other"))) 0 (lit "token") =
          .error err ∧ classifyOIDCError asciiTables (some err) = .wrongIssuer := by
  obtain ⟨err, hvalidate, hreason⟩ := classify_refused asciiTables (fun _ => []) _ 0 (lit "token")
    (.issuer clusterIssuer (lit "https://other")) (refusing_refused asciiTables _ _)
  exact ⟨err, hvalidate, hreason.mpr ⟨clusterIssuer_plain asciiTables, other_plain asciiTables⟩⟩

/-- The words that `classifyOIDCError` looks for. -/
def keywords : List GoString :=
  earlierWords ++ [lit "different provider", lit "issuer", lit "parse", lit "invalid json"]

/-- A token with iss "expired" is refused for its issuer and counted as expired, whatever the
tables of Unicode say. -/
theorem sender_chooses_reason :
    (∀ w ∈ keywords, ¬ w <:+: clusterIssuer) ∧
      ∀ u : Unicode, ∃ err, validate (fun _ => [])
          (refusing u (.issuer clusterIssuer (lit "expired"))) 0 (lit "token") = .error err ∧
        classifyOIDCError u (some err) = .expired := by
  refine ⟨by decide +kernel, fun u => ⟨_, validate_refused (refusing_refused u _ _) _ _, ?_⟩⟩
  rw [classify_invalid, lowered_issuer, plain_of_lowerCase u (by decide) (by decide),
    plain_of_lowerCase u (by decide) (by decide)]
  decide +kernel

end HarborBridge.TokenErrors

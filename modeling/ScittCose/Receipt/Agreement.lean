import ScittCose.Receipt.Order

/-!
# The verifiers compared

Each verifier comes down to a list of candidates: `candidatesOf` for Python, `Rust.candidatesOf` and
`Go.candidatesOf`. The Rust verifier reads the same list where the signature item is a byte string and
the algorithm fits an `int64` (`Rust.candidatesOf_eq`); the Go verifier reads it there too, and reads some
lists the others refuse (`Go.candidatesOf_of_some`).
-/

namespace ScittCose.Receipt

open Cbor
open EncodingRule (Grammar)

variable {L : Libraries} {receipt leafEntry : Octets} {leafEntryHex logPublicKeyPem : String}
  {e : Envelope}

/-! ## Candidates -/

/-- The candidates the Python verifier tries. -/
def candidatesOf (e : Envelope) : Option (List Candidate) :=
  if e.Headed receiptUnderstood then e.candidates proofSlot asBytes else none

/-- The candidates the Rust verifier tries. -/
def Rust.candidatesOf (e : Envelope) : Option (List Candidate) :=
  if Rust.Admitted e then e.candidates proofSlot asBytes else none

/-- The candidates the Go verifier tries. -/
def Go.candidatesOf (e : Envelope) : Option (List Candidate) :=
  if Go.Admitted vdsRfc9162Sha256 e then e.candidates Go.proofSlot goBytes else none

/-- The signature item is a byte string and the algorithm an integer of an `int64`. -/
def Signable (e : Envelope) : Prop :=
  (asBytes e.signature).isSome ∧ ∃ code, e.alg = some code ∧ -2 ^ 63 ≤ code ∧ code < 2 ^ 63

theorem exists_map_of_candidates {slot : Dict → Option Item} {node : Item → Option Octets} {h : Headers}
    {cs : List Candidate} (hcs : h.candidates slot node = some cs) : (asMap h.unprotected).isSome := by
  rw [h.candidates_eq_entries, Option.bind_eq_some_iff] at hcs
  obtain ⟨ps, hps, -⟩ := hcs
  have hentries := (Option.filter_eq_some_iff.mp hps).1
  rw [Headers.entries] at hentries
  split at hentries
  · next u hu =>
      rw [hu]
      rfl
  · cases hentries

/-- An algorithm that is there is one the headers name. -/
theorem headed_of_alg {h : Headers} {code : ℤ} (halg : h.alg = some code) :
    (h.protectedHeader.get (.int hdrAlg)).isSome := by
  rw [Headers.alg] at halg
  split at halg
  · next hget =>
      rw [hget]
      rfl
  · cases halg

theorem signable_iff_tryI64 :
    Signable e ↔ (asBytes e.signature).isSome ∧ (e.alg.bind Rust.tryI64).isSome := by
  rw [Signable]
  cases e.alg with
  | none => simp
  | some code => simp [Rust.tryI64]

/-- The Rust verifier tries the candidates of the Python verifier, where the receipt is signable. -/
theorem Rust.candidatesOf_eq (hvds : e.vds = some vdsRfc9162Sha256) (hs : Signable e) :
    Rust.candidatesOf e = Receipt.candidatesOf e := by
  obtain ⟨code, halg, -⟩ := hs.2
  have hs' := signable_iff_tryI64.mp hs
  rw [Rust.candidatesOf, Receipt.candidatesOf]
  by_cases hheaded : e.Headed receiptUnderstood
  · rw [if_pos hheaded]
    by_cases hadmitted : Rust.Admitted e
    · rw [if_pos hadmitted]
    · rw [if_neg hadmitted]
      cases hcs : e.candidates proofSlot asBytes with
      | none => rfl
      | some cs =>
          exact absurd ⟨exists_map_of_candidates hcs, hs'.1, hheaded.1, hvds, hs'.2⟩ hadmitted
  · rw [if_neg hheaded, if_neg]
    exact fun h => hheaded ⟨h.2.2.1, headed_of_alg halg⟩

/-- The Rust verifier tries no candidate of a receipt that is not signable. -/
theorem Rust.candidatesOf_eq_none (hs : ¬ Signable e) : Rust.candidatesOf e = none := by
  rw [Rust.candidatesOf, if_neg]
  exact fun h => hs (signable_iff_tryI64.mpr ⟨h.2.1, h.2.2.2.2⟩)

/-! ## Verdicts -/

/-- A signature that verifies is one of a signable receipt. -/
theorem signable_of_verifies {root : Octets} (h : e.verifies L.crypto logPublicKeyPem root = true) :
    Signable e := by
  rw [Envelope.verifies.eq_def] at h
  split at h
  · next signature alg key hsig halg hkey =>
      obtain ⟨code, hcode, hof⟩ := Option.bind_eq_some_iff.mp halg
      refine ⟨by rw [hsig]; rfl, code, hcode, ?_⟩
      rw [Alg.ofCode] at hof
      split_ifs at hof <;> omega
  · cases h

/-- Without a root that verifies the verdict is a diagnostic. -/
theorem verdictOver_ok {H : Hash} {verifies : Octets → Bool} {cs : Option (List Candidate)}
    (h : (verdictOver H leafEntry verifies cs).ok = true) :
    ∃ k : Candidate, verifies (k.root H leafEntry) = true := by
  cases cs with
  | none => cases h
  | some cs =>
      rw [verdictOver, outcome.eq_def] at h
      split at h
      · next k hfind => exact ⟨k, by simpa using List.find?_some hfind⟩
      · split at h <;> cases h

theorem rust_verifies_eq (halg : e.alg = some (-8) ∨ e.alg = some (-7)) :
    Rust.verifies L.crypto logPublicKeyPem e = e.verifies L.crypto logPublicKeyPem := by
  have hes384 : e.alg.bind Alg.ofCode ≠ some .es384 := by
    rcases halg with h | h
    · rw [h]
      decide
    · rw [h]
      decide
  funext root
  rw [Rust.verifies]
  simp [hes384]

/-- The claims of an accepted receipt are those of its protected header. -/
theorem iat_of_ok (he : Envelope.read receipt = some e) (hvds : e.vds = some vdsRfc9162Sha256)
    (hok : (verifyReceipt L receipt leafEntryHex logPublicKeyPem).ok = true) :
    (verifyReceipt L receipt leafEntryHex logPublicKeyPem).iat =
      iatClaim (cwtClaims e.protectedHeader) := by
  obtain ⟨e', leafEntry, cs, k, haccepted⟩ := exists_accepted hok ((vdsOf_eq he).trans hvds)
  obtain rfl : e' = e := Option.some.inj (haccepted.read.symm.trans he)
  rw [haccepted.result]
  rfl

theorem rust_readIat_eq (d : Dict) : Rust.readIat d = iatClaim (cwtClaims d) := by
  rw [Rust.readIat, cwtClaims, Rust.findLabel]
  cases d.get (.int hdrCwtClaims) with
  | none => rfl
  | some claims =>
      cases claims with
      | map claims =>
          change ((Dict.get claims (.int cwtClaimIat)).bind asInteger).bind Rust.tryI64 = iatClaim claims
          rw [iatClaim]
          cases Dict.get claims (.int cwtClaimIat) with
          | none => rfl
          | some n => cases n <;> rfl
      | _ => rfl

/-! ## Python and Rust -/

/-- Python and Rust accept the same receipts where the crate declares support: a verifiable data structure
other than 2, and an algorithm of -8 or -7. -/
theorem rust_verdict_eq (he : Envelope.read receipt = some e)
    (hleaf : Octets.fromHex leafEntryHex = some leafEntry) (hccf : e.vds ≠ some vdsCcfLedgerSha256)
    (halg : e.alg = some (-8) ∨ e.alg = some (-7)) :
    ∃ r, Rust.verifyReceipt L receipt leafEntry logPublicKeyPem = .ok r ∧
      (r.ok = true → r.iat = iatClaim (cwtClaims e.protectedHeader)) ∧
      (r.verdict = (verifyReceipt L receipt leafEntryHex logPublicKeyPem).verdict ∨
        r.ok = false ∧ (verifyReceipt L receipt leafEntryHex logPublicKeyPem).ok = false) := by
  obtain ⟨r, hr, hv, hiat⟩ := Rust.verifyReceipt_of_read (L := L) he leafEntry logPublicKeyPem
  refine ⟨r, hr, fun hok => (hiat hok).trans (rust_readIat_eq _), ?_⟩
  rw [rust_verifies_eq halg] at hv
  by_cases hvds : e.vds = some vdsRfc9162Sha256
  · have hpython : (verifyReceipt L receipt leafEntryHex logPublicKeyPem).verdict = _ :=
      verdict_of_rfc9162 he hleaf hvds
    by_cases hs : Signable e
    · left
      rw [hv, hpython]
      exact congrArg _ (Rust.candidatesOf_eq hvds hs)
    · right
      have hnone : Rust.candidatesOf e = none := Rust.candidatesOf_eq_none hs
      rw [Rust.candidatesOf] at hnone
      rw [hnone] at hv
      refine ⟨congrArg Verdict.ok hv, ?_⟩
      by_contra hok
      have hverdict := congrArg Verdict.ok hpython
      rw [show (verifyReceipt L receipt leafEntryHex logPublicKeyPem).verdict.ok = true
        from Bool.not_eq_false _ ▸ hok] at hverdict
      obtain ⟨k, hk⟩ := verdictOver_ok hverdict.symm
      exact hs (signable_of_verifies hk)
  · left
    have hadmitted : ¬ Rust.Admitted e := fun h => hvds h.2.2.2.1
    rw [hv, if_neg hadmitted, verdict_of_vds he hvds hccf]
    rfl

/-- Python and Rust accept the same receipts where the crate declares support, a verifiable data structure
other than 2 and an algorithm of -8 or -7, and report the same root, size, index and time. The strict decode
of Python refuses nothing that meets the encoding rule. -/
theorem verifyReceipt_rust_agrees (L : Libraries) {leafEntryHex : String} {leafEntry : Octets}
    (hleaf : Octets.fromHex leafEntryHex = some leafEntry) (receipt : Octets) (logPublicKeyPem : String)
    (hdeclared : ∀ e, Envelope.read receipt = some e →
      e.vds ≠ some vdsCcfLedgerSha256 ∧ (e.alg = some (-8) ∨ e.alg = some (-7))) :
    (∃ r, Rust.verifyReceipt L receipt leafEntry logPublicKeyPem = .ok r ∧
      let python := verifyReceipt L receipt leafEntryHex logPublicKeyPem
      (r.ok = true ↔ python.ok = true) ∧
      (r.ok = true → r.root.map Octets.toHex = python.root ∧ r.treeSize.map (↑) = python.treeSize ∧
        r.leafIndex.map (↑) = python.leafIndex ∧ r.iat = python.iat)) ∧
    ∀ octets rule what outerTag, EncodingRule.check octets rule outerTag = .ok () →
      ∃ i, strictDecodeItem L octets what = .ok i := by
  constructor
  · cases he : Envelope.read receipt with
    | none =>
        obtain ⟨r, hr, -, hok⟩ := Rust.verifyReceipt_of_read_none (L := L) he leafEntry logPublicKeyPem
        have hpython := congrArg Verdict.ok
          (@verdict_of_read_none L receipt leafEntryHex logPublicKeyPem he)
        refine ⟨r, hr, ?_, fun h => ?_⟩
        · exact iff_of_false (by rw [hok]; nofun) (by
            rw [show (verifyReceipt L receipt leafEntryHex logPublicKeyPem).ok = false from hpython]
            nofun)
        · rw [hok] at h
          cases h
    | some e =>
        obtain ⟨hccf, halg⟩ := hdeclared e he
        obtain ⟨r, hr, hiat, hsame | ⟨hrust, hpython⟩⟩ :=
          @rust_verdict_eq L receipt leafEntry leafEntryHex logPublicKeyPem e he hleaf hccf halg
        · have hok : r.ok = (verifyReceipt L receipt leafEntryHex logPublicKeyPem).ok :=
            congrArg Verdict.ok hsame
          refine ⟨r, hr, by rw [hok], fun h => ⟨congrArg Verdict.root hsame,
            congrArg Verdict.treeSize hsame, congrArg Verdict.leafIndex hsame, ?_⟩⟩
          have hvds : e.vds = some vdsRfc9162Sha256 := by
            by_contra hvds
            have hmalformed := congrArg Verdict.ok
              (@verdict_of_vds L receipt e leafEntryHex logPublicKeyPem he hvds hccf)
            rw [show (verifyReceipt L receipt leafEntryHex logPublicKeyPem).verdict.ok = true
              from hok.symm.trans h] at hmalformed
            cases hmalformed
          exact (hiat h).trans (iat_of_ok he hvds (hok.symm.trans h)).symm
        · refine ⟨r, hr, iff_of_false (by rw [hrust]; nofun) (by rw [hpython]; nofun), fun h => ?_⟩
          rw [hrust] at h
          cases h
  · intro octets rule what outerTag hcheck
    obtain ⟨i, hi, rfl⟩ := EncodingRule.check_ok_iff.mp hcheck
    have hany : Grammar true i := by
      cases outerTag with
      | true => exact hi
      | false => exact EncodingRule.Grammar.outer hi
    exact ⟨i, strictDecodeItem_encode hany what⟩

set_option maxRecDepth 100000 in
/-- The vector verifies in Rust as it does in Python. -/
theorem verifyReceipt_rust_agrees_vector :
    ∃ r, Rust.verifyReceipt vectorLibraries vectorReceipt [1] vectorPem = .ok r ∧ r.ok = true ∧
      r.iat = some 1700000900 := by
  have hheaders : (Envelope.read vectorReceipt).map (fun e => (e.vds, e.alg)) =
      some (some 1, some (-8)) := by decide +kernel
  obtain ⟨⟨r, hr, hok, hsame⟩, -⟩ := verifyReceipt_rust_agrees vectorLibraries
    (show Octets.fromHex "01" = some [1] by decide) vectorReceipt vectorPem (by
      intro e he
      rw [he, Option.map_some, Option.some.injEq, Prod.mk.injEq] at hheaders
      rw [hheaders.1, hheaders.2]
      decide)
  have hpython : (verifyReceipt vectorLibraries vectorReceipt "01" vectorPem).ok = true := by
    rw [verifyReceipt_vector]
  refine ⟨r, hr, hok.mpr hpython, ?_⟩
  rw [(hsame (hok.mpr hpython)).2.2.2, verifyReceipt_vector]

/-! ## What Go reads too -/

theorem mem_goUnderstood_iff {vds : ℤ} {label : Item} :
    label ∈ Go.understoodLabels vds ↔ label ∈ understoodLabels (some vds) := by
  rw [Go.understoodLabels, understoodLabels]
  by_cases hvds : vds = vdsCcfLedgerSha256
  · rw [if_pos hvds, if_pos (congrArg some hvds)]
    simp only [ccfReceiptUnderstood, receiptUnderstood, Go.hdrKid, List.cons_append, List.nil_append,
      List.mem_cons]
    tauto
  · rw [if_neg hvds, if_neg fun h => hvds (Option.some.inj h)]
    simp only [receiptUnderstood, List.append_nil, List.mem_cons]
    tauto

theorem critical_go_iff {h : Headers} {vds : ℤ} :
    h.Critical (Go.understoodLabels vds) ↔ h.Critical (understoodLabels (some vds)) := by
  simp only [Headers.Critical, mem_goUnderstood_iff]

/-- Go admits the headers Python admits, where the receipt is signable and its unprotected header a map. -/
theorem go_admitted_of_headed {vds : ℤ} (hs : Signable e) (hu : (asMap e.unprotected).isSome)
    (hheaded : e.Headed (understoodLabels (some vds))) : Go.Admitted vds e := by
  obtain ⟨code, halg, hrange⟩ := hs.2
  refine ⟨hu, hs.1, critical_go_iff.mpr hheaded.1, ?_⟩
  rw [Go.intAt_alg, halg, Option.filter_some, if_pos (by simpa using hrange)]
  rfl

/-- What stands under -1 is what Go reads. -/
theorem go_proofSlot_of_some {vdp : Dict} {v : Item} (h : proofSlot vdp = some v) :
    Go.proofSlot vdp = some v := by
  rw [Go.proofSlot_eq, h, Option.some_or]

theorem go_entries_of_some {h : Headers} {ps : List Item} (hps : h.entries proofSlot = some ps) :
    h.entries Go.proofSlot = some ps := by
  rw [Headers.entries] at hps ⊢
  split at hps
  · split at hps
    · split at hps
      · next hq =>
          rw [go_proofSlot_of_some hq]
          exact hps
      · cases hps
    · cases hps
  · cases hps

theorem goBytes_of_asBytes {i : Item} {b : Octets} (h : asBytes i = some b) : goBytes i = some b := by
  cases i with
  | bytes b' => exact h
  | _ => cases h

theorem go_read_of_some {i : Item} {k : Candidate} (h : Candidate.read asBytes i = some k) :
    Candidate.read goBytes i = some k := by
  rw [Candidate.read.eq_def] at h ⊢
  split at h
  · next n m path =>
      obtain ⟨nodes, hnodes, hk⟩ := Option.bind_eq_some_iff.mp h
      rw [Octets.mapM_mono (fun i b => goBytes_of_asBytes) hnodes, Option.bind_some]
      exact hk
  · cases h

theorem go_readEntry_of_some {p : Item} {k : Candidate} (h : readEntry asBytes p = some k) :
    readEntry goBytes p = some k := by
  obtain ⟨i, hi, hk⟩ := Option.bind_eq_some_iff.mp h
  rw [readEntry, hi, Option.bind_some]
  exact go_read_of_some hk

/-- The candidates Python tries are those Go tries, where the receipt is signable. -/
theorem Go.candidatesOf_of_some {cs : List Candidate} (hs : Signable e)
    (hcs : Receipt.candidatesOf e = some cs) : Go.candidatesOf e = some cs := by
  rw [Receipt.candidatesOf] at hcs
  by_cases hheaded : e.Headed receiptUnderstood
  · rw [if_pos hheaded] at hcs
    have hadmitted : Go.Admitted vdsRfc9162Sha256 e :=
      go_admitted_of_headed hs (exists_map_of_candidates hcs) hheaded
    rw [Go.candidatesOf, if_pos hadmitted]
    rw [Headers.candidates_eq_entries] at hcs ⊢
    obtain ⟨ps, hps, hread⟩ := Option.bind_eq_some_iff.mp hcs
    obtain ⟨hentries, hcap⟩ := Option.filter_eq_some_iff.mp hps
    rw [go_entries_of_some hentries, Option.filter_some, if_pos hcap, Option.bind_some]
    exact Octets.mapM_mono (fun p k => go_readEntry_of_some) hread
  · rw [if_neg hheaded] at hcs
    cases hcs

/-! ## Diagnostics -/

/-- A verdict that refuses is the one of a signature that never verifies. -/
theorem verdictOver_of_not_ok {H : Hash} {verifies : Octets → Bool} {cs : Option (List Candidate)}
    (h : (verdictOver H leafEntry verifies cs).ok = false) :
    verdictOver H leafEntry verifies cs = verdictOver H leafEntry (fun _ => false) cs := by
  cases cs with
  | none => rfl
  | some cs =>
      have hfalse : (cs.find? fun _ => false) = none := List.find?_eq_none.mpr (by simp)
      rw [verdictOver, outcome.eq_def] at h ⊢
      rw [verdictOver, outcome.eq_def, hfalse]
      cases hfind : cs.find? fun k => verifies (k.root H leafEntry) with
      | some k =>
          rw [hfind] at h
          cases h
      | none => rfl

/-- Where there are candidates a refusal is for the signature, elsewhere for the structure. -/
theorem failedAt_verdictOver {H : Hash} {cs : Option (List Candidate)} (hne : cs ≠ some []) :
    (verdictOver H leafEntry (fun _ => false) cs).failedAt =
      if cs.isSome then some .signature else some .structural := by
  cases cs with
  | none => rfl
  | some cs =>
      obtain ⟨k, cs, rfl⟩ := List.exists_cons_of_ne_nil fun h => hne (congrArg some h)
      have hfalse : ((k :: cs).find? fun _ => false) = none := List.find?_eq_none.mpr (by simp)
      rw [verdictOver, outcome.eq_def, hfalse]
      rfl

theorem candidates_ne_nil {slot : Dict → Option Item} {node : Item → Option Octets} {h : Headers} :
    h.candidates slot node ≠ some [] := by
  intro hcs
  rw [h.candidates_eq_entries, Option.bind_eq_some_iff] at hcs
  obtain ⟨ps, hps, hread⟩ := hcs
  have hlen := Octets.length_of_mapM hread
  exact Headers.ne_nil_of_entries (Option.filter_eq_some_iff.mp hps).1
    (List.length_eq_zero_iff.mp hlen.symm)

/-- The three readings of an RFC 9162 receipt come to the same candidates, or none. -/
def SameCandidates (e : Envelope) : Prop :=
  ((candidatesOf e).isSome → Signable e) ∧ ((Go.candidatesOf e).isSome → (candidatesOf e).isSome)

theorem candidatesOf_ne_nil : candidatesOf e ≠ some [] := by
  rw [candidatesOf]
  split_ifs
  · exact candidates_ne_nil
  · nofun

theorem rust_candidatesOf_ne_nil : Rust.candidatesOf e ≠ some [] := by
  rw [Rust.candidatesOf]
  split_ifs
  · exact candidates_ne_nil
  · nofun

theorem go_candidatesOf_ne_nil : Go.candidatesOf e ≠ some [] := by
  rw [Go.candidatesOf]
  split_ifs
  · exact candidates_ne_nil
  · nofun

/-- The diagnostics of three refusals are the same exactly where the readings are. -/
theorem diagnostics_eq_iff {H : Hash} (hvds : e.vds = some vdsRfc9162Sha256) :
    verdictOver H leafEntry (fun _ => false) (Rust.candidatesOf e) =
          verdictOver H leafEntry (fun _ => false) (candidatesOf e) ∧
        verdictOver H leafEntry (fun _ => false) (Go.candidatesOf e) =
          verdictOver H leafEntry (fun _ => false) (candidatesOf e) ↔
      SameCandidates e := by
  constructor
  · rintro ⟨hrust, hgo⟩
    have hrust := congrArg Verdict.failedAt hrust
    have hgo := congrArg Verdict.failedAt hgo
    rw [failedAt_verdictOver rust_candidatesOf_ne_nil, failedAt_verdictOver candidatesOf_ne_nil] at hrust
    rw [failedAt_verdictOver go_candidatesOf_ne_nil, failedAt_verdictOver candidatesOf_ne_nil] at hgo
    constructor
    · intro hsome
      by_contra hs
      rw [Rust.candidatesOf_eq_none hs, if_neg (by simp), if_pos hsome] at hrust
      cases hrust
    · intro hsome
      by_contra hnone
      rw [if_pos hsome, if_neg hnone] at hgo
      cases hgo
  · rintro ⟨hsign, hlenient⟩
    cases hcs : candidatesOf e with
    | some cs =>
        have hs := hsign (by rw [hcs]; rfl)
        rw [Rust.candidatesOf_eq hvds hs, hcs, Go.candidatesOf_of_some hs hcs]
        exact ⟨rfl, rfl⟩
    | none =>
        have hgo : Go.candidatesOf e = none := by
          rw [← Option.not_isSome_iff_eq_none]
          intro hsome
          have := hlenient hsome
          rw [hcs] at this
          cases this
        have hrust : Rust.candidatesOf e = none := by
          by_cases hs : Signable e
          · rw [Rust.candidatesOf_eq hvds hs, hcs]
          · exact Rust.candidatesOf_eq_none hs
        rw [hrust, hgo]
        exact ⟨rfl, rfl⟩

theorem loadPublicKey_vector : vectorLibraries.crypto.loadPublicKey vectorPem = .ok () :=
  Crypto.loadPublicKey_ed25519 vectorPem "" _ vectorSignature (Octets.length_ofNat _ _)

/-- The receipt of the vector with the integer 0 in the place of its signature. -/
def unsignedReceipt : Octets :=
  Carrier.receipt { vectorCarrier with signature := .int 0 } [vectorProof]

/-- The root of a CCF receipt for Python. -/
def ccfRootOf (H : Hash) (leafEntry : Octets) (e : Envelope) : Option Octets :=
  if e.Headed ccfReceiptUnderstood then
    e.cappedProofs.bind (firstCcfRoot H leafEntry fun p => p.path.length ≤ maxAuditPath)
  else none

/-- The root of a CCF receipt for Go. -/
def Go.ccfRootOf (H : Hash) (leafEntry : Octets) (e : Envelope) : Option Octets :=
  (if Go.Admitted vdsCcfLedgerSha256 e then e.proofs Go.proofSlot else none).bind
    (firstCcfRoot H leafEntry fun _ => true)

/-- The roots Python tries the signature over. -/
def roots (H : Hash) (leafEntry : Octets) (e : Envelope) : List Octets :=
  if e.vds = some vdsRfc9162Sha256 then
    ((candidatesOf e).getD []).map fun k => k.root H leafEntry
  else (ccfRootOf H leafEntry e).toList

/-- The roots Go tries the signature over. -/
def Go.roots (H : Hash) (leafEntry : Octets) (e : Envelope) : List Octets :=
  if e.vds = some vdsRfc9162Sha256 then
    ((Go.candidatesOf e).getD []).map fun k => k.root H leafEntry
  else (Go.ccfRootOf H leafEntry e).toList

theorem go_proofs_of_some {h : Headers} {items : List Item} (hp : h.proofs proofSlot = some items) :
    h.proofs Go.proofSlot = some items := by
  rw [Headers.proofs_eq_entries] at hp ⊢
  obtain ⟨ps, hps, hitems⟩ := Option.bind_eq_some_iff.mp hp
  rw [go_entries_of_some hps, Option.bind_some, hitems]

/-- The root Python rebuilds from a CCF receipt is the one Go rebuilds, where the receipt is signable. -/
theorem Go.ccfRootOf_of_some {H : Hash} {root : Octets} (hs : Signable e)
    (h : Receipt.ccfRootOf H leafEntry e = some root) : Go.ccfRootOf H leafEntry e = some root := by
  rw [Receipt.ccfRootOf] at h
  by_cases hheaded : e.Headed ccfReceiptUnderstood
  · rw [if_pos hheaded] at h
    obtain ⟨items, hitems, hroot⟩ := Option.bind_eq_some_iff.mp h
    have hproofs := (Option.filter_eq_some_iff.mp hitems).1
    obtain ⟨u, hu⟩ := exists_map_of_cappedProofs hitems
    have hadmitted : Go.Admitted vdsCcfLedgerSha256 e :=
      go_admitted_of_headed hs (by rw [hu]; rfl) hheaded
    rw [Go.ccfRootOf, if_pos hadmitted, go_proofs_of_some hproofs, Option.bind_some]
    rw [firstCcfRoot] at hroot ⊢
    obtain ⟨p, hp, hroot⟩ := Option.bind_eq_some_iff.mp hroot
    rw [(Option.filter_eq_some_iff.mp hp).1, Option.filter_some, if_pos rfl, Option.bind_some]
    exact hroot
  · rw [if_neg hheaded] at h
    cases h

/-- How two verdicts over roots compare: an accepted receipt of Python is one of Go with the same verdict,
and where Python has a root, Go accepts no more. -/
structure Compares (verifies : Octets → Bool) (rs goRs : List Octets) (v goV : Verdict) : Prop where
  eq_of_ok : v.ok = true → goV = v
  ok_of_ne_nil : rs ≠ [] → goV.ok = true → v.ok = true
  ne_nil_of_ok : v.ok = true → rs ≠ []
  ok_iff : goV.ok = true ↔ ∃ root ∈ goRs, verifies root = true

theorem verdictOver_ok_iff_roots {H : Hash} {verifies : Octets → Bool} {cs : Option (List Candidate)} :
    (verdictOver H leafEntry verifies cs).ok = true ↔
      ∃ root ∈ (cs.getD []).map (fun k => k.root H leafEntry), verifies root = true := by
  cases cs with
  | none => exact iff_of_false nofun (by simp)
  | some cs =>
      rw [verdictOver, outcome_ok, List.any_eq_true]
      simp

theorem compares_rfc9162 {H : Hash} (hvds : e.vds = some vdsRfc9162Sha256) :
    Compares (e.verifies L.crypto logPublicKeyPem) (roots H leafEntry e) (Go.roots H leafEntry e)
      (verdictOver H leafEntry (e.verifies L.crypto logPublicKeyPem) (candidatesOf e))
      (verdictOver H leafEntry (e.verifies L.crypto logPublicKeyPem) (Go.candidatesOf e)) := by
  have hroots : roots H leafEntry e = ((candidatesOf e).getD []).map fun k => k.root H leafEntry :=
    if_pos hvds
  have hgo : Go.roots H leafEntry e =
      ((Go.candidatesOf e).getD []).map fun k => k.root H leafEntry := if_pos hvds
  have hsame : ∀ k : Candidate, e.verifies L.crypto logPublicKeyPem (k.root H leafEntry) = true →
      ∀ cs, candidatesOf e = some cs → Go.candidatesOf e = candidatesOf e := by
    intro k hk cs hcs
    rw [Go.candidatesOf_of_some (signable_of_verifies hk) hcs, hcs]
  constructor
  · intro hok
    obtain ⟨k, hk⟩ := verdictOver_ok hok
    cases hcs : candidatesOf e with
    | none => rw [hcs] at hok; cases hok
    | some cs => rw [hsame k hk cs hcs, hcs]
  · intro hne hok
    obtain ⟨k, hk⟩ := verdictOver_ok hok
    cases hcs : candidatesOf e with
    | none => rw [hroots, hcs] at hne; exact absurd rfl hne
    | some cs =>
        rw [hsame k hk cs hcs, hcs] at hok
        exact hok
  · intro hok
    rw [verdictOver_ok_iff_roots, ← hroots] at hok
    obtain ⟨root, hroot, -⟩ := hok
    exact List.ne_nil_of_mem hroot
  · rw [verdictOver_ok_iff_roots, hgo]

theorem compares_ccf {H : Hash} (hvds : e.vds = some vdsCcfLedgerSha256) :
    Compares (e.verifies L.crypto logPublicKeyPem) (roots H leafEntry e) (Go.roots H leafEntry e)
      (ccfVerdict (e.verifies L.crypto logPublicKeyPem) (ccfRootOf H leafEntry e))
      (ccfVerdict (e.verifies L.crypto logPublicKeyPem) (Go.ccfRootOf H leafEntry e)) := by
  have hne : e.vds ≠ some vdsRfc9162Sha256 := by
    rw [hvds]
    decide
  have hroots : roots H leafEntry e = (ccfRootOf H leafEntry e).toList := if_neg hne
  have hgo : Go.roots H leafEntry e = (Go.ccfRootOf H leafEntry e).toList := if_neg hne
  have hok_iff : ∀ root : Option Octets,
      (ccfVerdict (e.verifies L.crypto logPublicKeyPem) root).ok = true ↔
        ∃ r ∈ root.toList, e.verifies L.crypto logPublicKeyPem r = true := by
    intro root
    cases root with
    | none => exact iff_of_false nofun (by simp)
    | some root => simp [ccfVerdict]
  have hsame : ∀ r, e.verifies L.crypto logPublicKeyPem r = true → ∀ root,
      ccfRootOf H leafEntry e = some root → Go.ccfRootOf H leafEntry e = ccfRootOf H leafEntry e := by
    intro r hr root hroot
    rw [Go.ccfRootOf_of_some (signable_of_verifies hr) hroot, hroot]
  constructor
  · intro hok
    obtain ⟨r, hr, hv⟩ := (hok_iff _).mp hok
    rw [hsame r hv r (Option.mem_toList.mp hr)]
  · intro hne hok
    obtain ⟨r, hr, hv⟩ := (hok_iff _).mp hok
    cases hroot : ccfRootOf H leafEntry e with
    | none => rw [hroots, hroot] at hne; exact absurd rfl hne
    | some root =>
        rw [hsame r hv root hroot, hroot] at hok
        exact hok
  · intro hok
    obtain ⟨r, hr, -⟩ := (hok_iff _).mp hok
    rw [hroots]
    exact List.ne_nil_of_mem hr
  · rw [hok_iff, hgo]

/-- The verdicts over an envelope agree exactly where a root that Go verifies is not one of proofs that Python
refuses. -/
theorem Compares.agree_iff {verifies : Octets → Bool} {rs goRs : List Octets} {v goV : Verdict}
    (h : Compares verifies rs goRs v goV) :
    ((goV.ok = true ↔ v.ok = true) ∧
        (v.ok = true → goV.root = v.root ∧ goV.treeSize = v.treeSize ∧ goV.leafIndex = v.leafIndex)) ↔
      ((∃ root ∈ goRs, verifies root = true) → rs ≠ []) := by
  constructor
  · rintro ⟨hiff, -⟩ hroot
    exact h.ne_nil_of_ok (hiff.mp (h.ok_iff.mpr hroot))
  · intro hne
    refine ⟨⟨fun hgo => h.ok_of_ne_nil (hne (h.ok_iff.mp hgo)) hgo, fun hok => ?_⟩, fun hok => ?_⟩
    · rw [h.eq_of_ok hok]
      exact hok
    · rw [h.eq_of_ok hok]
      exact ⟨rfl, rfl, rfl⟩

/-- The first node of the vector's path as an array of integers. -/
def lenientProof : Item :=
  .bytes (encode (.array [.int 4, .int 1, .array [
    .array ((Octets.ofNat 32
      0x96a296d224f285c67bee93c30f8a309157f0daa35dc5b87e410b78630a09cfc7).map fun x => .int x.toNat),
    .bytes (Octets.ofNat 32
      0x52c56b473e5246933e7852989cd9feba3b38f078742b93afff1e65ed46797825)]]))

end ScittCose.Receipt

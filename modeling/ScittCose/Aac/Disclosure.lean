import ScittCose.Aac.Ritual

/-!
# What a disclosure is compared with

The payloads of an agent are compared with two different digests: a text is hashed as it is, any other value as
JSON. `Json.Dialect.jcs` is the form the pages hash. Up to `DEL` the server hashes the same octets, so that it
records a match when the committed digest is that of the canonical form (`checked_agentField_iff`).
-/

namespace ScittCose.Aac

open Json (Tree Ascii)

/-- The digest of the canonical form of RFC 8785; integers are those a double holds exactly. -/
def jcsDigest (H : Hash) (toString : UInt64 → List Char) (t : Tree) : String :=
  Octets.toHex (H.digest (Utf8.encode (String.ofList (t.render (.jcs toString)))))

/-- What went into the agent and what came out. -/
inductive AgentField where
  | input
  | output

namespace AgentField

/-- The field that commits to it. -/
def key : AgentField → String
  | .input => "agent_input_digest"
  | .output => "agent_output_digest"

/-- The member that discloses it. -/
def type : AgentField → String
  | .input => "agent_input"
  | .output => "agent_output"

/-- The digests of the fields of a capsule that are read before it. -/
def earlier (cap : Tree) : AgentField → List String
  | .input => (capsuleId cap).toList ++ leadingDigests cap
  | .output => (capsuleId cap).toList ++ leadingDigests cap ++ (digestAt (attestationPath input.key) cap).toList

end AgentField

variable {py : Python} {data : Tree} {view : GraphView} {fields : List (String × Tree)}

/-- The two payloads of an envelope, each after the digests read before it. -/
theorem disclosures_envelope
    (hbinding : ¬ ((data.member? "buyer_capsule").isSome && (data.member? "seller_capsule").isSome) = true)
    (hcap : data.member? "capsule" = some (.obj fields)) (hid : (capsuleId (.obj fields)).isSome) :
    disclosures data = [AgentField.input, AgentField.output].flatMap fun field =>
      agentDisclosure true (field.earlier (.obj fields)) (digestAt (attestationPath field.key) (.obj fields))
        (((dictOrEmpty (data.member? "disclosures")).member? field.type).bind given) := by
  rw [disclosures, if_neg hbinding, hcap]
  simp only
  rw [hid, capsuleDisclosures, List.flatMap_cons, List.flatMap_cons, List.flatMap_nil, List.append_nil]
  rfl

/-- A payload without results of its own digest leaves the results of others. -/
theorem not_mem_result_agentDisclosure {before : List String} {committed : Option String} {value : Option Tree}
    {digest : String} {ok : Bool} (h : committed ≠ some digest ∨ digest ∈ before) :
    (digest, ok) ∉ (agentDisclosure true before committed value).flatMap (Disclosure.result py) := by
  intro hmem
  obtain ⟨d, hd, hresult⟩ := List.mem_flatMap.mp hmem
  unfold agentDisclosure at hd
  split at hd
  · rw [List.mem_singleton.mp hd, Disclosure.result] at hresult
    split_ifs at hresult with hhashed
    · obtain ⟨rfl, -⟩ := Prod.mk.inj (List.mem_singleton.mp hresult)
      exact h.elim (fun hne => hne rfl) hhashed.2
    · exact List.not_mem_nil hresult
  · exact List.not_mem_nil hd

/-- The result recorded for a payload whose digest is new: whether the payload recomputes to it. -/
theorem checked_agentField (hview : parseCapsule py data = some view)
    (hbinding : ¬ ((data.member? "buyer_capsule").isSome && (data.member? "seller_capsule").isSome) = true)
    (hcap : data.member? "capsule" = some (.obj fields)) (hid : (capsuleId (.obj fields)).isSome)
    {field : AgentField} {digest : String} {value : Tree}
    (hdigest : digestAt (attestationPath field.key) (.obj fields) = some digest)
    (hfresh : digest ∉ field.earlier (.obj fields))
    (hvalue : ((dictOrEmpty (data.member? "disclosures")).member? field.type).bind given = some value)
    (ok : Bool) : (digest, ok) ∈ view.checked ↔ ok = (payloadDigest py value == digest) := by
  have hown : (digest, ok) ∈ (agentDisclosure true (field.earlier (.obj fields))
      (digestAt (attestationPath field.key) (.obj fields))
      (((dictOrEmpty (data.member? "disclosures")).member? field.type).bind given)).flatMap
        (Disclosure.result py) ↔ ok = (payloadDigest py value == digest) := by
    rw [hdigest, hvalue, agentDisclosure, List.flatMap_singleton, Disclosure.result, if_pos ⟨rfl, hfresh⟩,
      List.mem_singleton, Prod.mk.injEq, and_iff_right rfl]
    rfl
  rw [parseCapsule_spec hview, disclosures_envelope hbinding hcap hid, List.flatMap_cons, List.flatMap_cons,
    List.flatMap_nil, List.append_nil, List.flatMap_append, List.mem_append]
  cases field with
  | input =>
      -- the output has another digest, or one that has been met
      refine (or_iff_left (not_mem_result_agentDisclosure (.inr ?_))).trans hown
      rw [AgentField.earlier, hdigest]
      exact List.mem_append_right _ (List.mem_singleton_self _)
  | output =>
      refine (or_iff_right (not_mem_result_agentDisclosure (.inl fun hinput => hfresh ?_))).trans hown
      rw [AgentField.earlier, hinput]
      exact List.mem_append_right _ (List.mem_singleton_self _)

end ScittCose.Aac

import Psrp.Core.Message

/-!
# The Message Codec

Which byte strings are messages, and how much of them a message keeps.

A byte string is a message exactly when it has a header, the header names a
destination, and the body is UTF-8 once a byte order mark is taken off it.
What is read writes the same bytes, but for that mark: every field of the
header has as many values as its bytes.

## Main definitions

* `withoutBom`: A body without its byte order mark.

## Theorems

* `MessageType.toU32_fromU32`: Every code survives.
* `message_codec_exact`: The codec is exact.
-/

namespace Psrp

/-- Four bytes are the bytes of the number they hold. -/
theorem leBytes_ofNat_ofLe {bs : Bytes} (h : bs.length = 4) :
    leBytes 4 (UInt32.ofNat (ofLe bs)).toNat = bs := by
  have hlt := ofLe_lt bs
  rw [h] at hlt
  rw [UInt32.toNat_ofNat_of_lt' hlt]
  have hback := leBytes_ofLe bs
  rwa [h] at hback

/-- Text that is read is the text of its bytes. -/
theorem Text.toUtf8_fromUtf8 {bs : Bytes} {s : Text} (h : Text.fromUtf8 bs = .ok s) :
    s.toUtf8 = bs := by
  unfold Text.fromUtf8 at h
  cases hdecode : bs.toByteArray.utf8Decode? with
  | none =>
      rw [hdecode] at h
      cases h
  | some cs =>
      rw [hdecode] at h
      cases h
      have hsome : bs.toByteArray.utf8Decode?.isSome := by
        rw [hdecode]
        rfl
      have hget : bs.toByteArray.utf8Decode?.get hsome = cs := Option.get_of_eq_some hsome hdecode
      have hencode := ByteArray.utf8Encode_get_utf8Decode? (b := bs.toByteArray) (h := hsome)
      rw [hget] at hencode
      rw [← Text.toByteArray_toUtf8] at hencode
      have hdata := congrArg ByteArray.data hencode
      rw [List.data_toByteArray, List.data_toByteArray] at hdata
      exact Array.toList_inj.mpr hdata

namespace MessageType

/-- Every code survives: the two tables undo each other. -/
theorem toU32_fromU32 (v : UInt32) : (fromU32 v).toU32 = v := by
  unfold fromU32
  split
  all_goals first
    | rfl
    | next hv => exact UInt32.toNat_inj.mp hv.symm

end MessageType

/-- A body without its byte order mark. -/
def withoutBom (body : Bytes) : Bytes :=
  if BOM.isPrefixOf body then body.drop BOM.length else body

namespace PsrpMessage

theorem toBytesLe_readUuid {bs : Bytes} (h : bs.length = 16) :
    (readUuid bs).toBytesLe.toList = bs := by
  rw [readUuid, Uuid.toBytesLe_fromBytesLe, Vector.toList_ofFn]
  refine List.ext_getElem (by rw [List.length_ofFn, h]) (fun i hi hi' => ?_)
  rw [List.getElem_ofFn, List.getD_eq_getElem _ _ hi']

theorem toU32_of_fromU32 {v : UInt32} {d : Destination} (h : Destination.fromU32 v = .ok d) :
    d.toU32 = v := by
  unfold Destination.fromU32 at h
  split_ifs at h with hclient hserver
  · cases h
    exact hclient.symm
  · cases h
    exact hserver.symm

theorem fromU32_ok_iff (v : UInt32) :
    (∃ d, Destination.fromU32 v = .ok d) ↔ v = 1 ∨ v = 2 := by
  constructor
  · intro h
    obtain ⟨d, h⟩ := h
    have hv := toU32_of_fromU32 h
    cases d
    · exact Or.inl hv.symm
    · exact Or.inr hv.symm
  · intro h
    rcases h with rfl | rfl
    · exact ⟨.client, rfl⟩
    · exact ⟨.server, rfl⟩

/-- A byte string with a header is read field by field. -/
theorem decode_header {dest mt rpid pid : Bytes} (body : Bytes) (hdest : dest.length = 4)
    (hmt : mt.length = 4) (hrpid : rpid.length = 16) (hpid : pid.length = 16) :
    decode (dest ++ (mt ++ (rpid ++ (pid ++ body)))) = (do
      let destination ← Destination.fromU32 (UInt32.ofNat (ofLe dest))
      match Text.fromUtf8 (withoutBom body) with
      | .error e => .error (.protocol s!"invalid UTF-8 in message body: {e}")
      | .ok data => .ok {
          destination, messageType := .fromU32 (UInt32.ofNat (ofLe mt)), rpid := readUuid rpid,
          pid := readUuid pid, data }) := by
  have hdecode := decode.eq_1 (dest ++ (mt ++ (rpid ++ (pid ++ body))))
  rw [splitFirst_append 4 _ _ hdest] at hdecode
  simp only [splitFirst_append 4 _ _ hmt, splitFirst_append 16 _ _ hrpid,
    splitFirst_append 16 _ _ hpid] at hdecode
  exact hdecode

/-- Forty bytes are four fields. -/
theorem header_fields {bytes : Bytes} (h : 40 ≤ bytes.length) :
    ∃ dest mt rpid pid body : Bytes, bytes = dest ++ (mt ++ (rpid ++ (pid ++ body)))
      ∧ dest.length = 4 ∧ mt.length = 4 ∧ rpid.length = 16 ∧ pid.length = 16 := by
  refine ⟨bytes.take 4, (bytes.drop 4).take 4, (bytes.drop 8).take 16, (bytes.drop 24).take 16,
    bytes.drop 40, ?_, ?_, ?_, ?_, ?_⟩
  · -- Each drop is what the field before it leaves.
    have hpid := List.take_append_drop 16 (bytes.drop 24)
    have hrpid := List.take_append_drop 16 (bytes.drop 8)
    have hmt := List.take_append_drop 4 (bytes.drop 4)
    rw [List.drop_drop] at hpid hrpid hmt
    rw [hpid, hrpid, hmt, List.take_append_drop]
  all_goals
    rw [List.length_take]
    try rw [List.length_drop]
    omega

/-- A byte string with no header is refused. -/
theorem decode_short {bytes : Bytes} (h : bytes.length < 40) :
    decode bytes = .error (.protocol s!"message too short: {bytes.length} bytes") := by
  unfold decode
  cases hdest : splitFirst 4 bytes with
  | none => rfl
  | some p =>
      obtain ⟨dest, afterDest⟩ := p
      cases hmt : splitFirst 4 afterDest with
      | none => simp only [hmt]
      | some p =>
          obtain ⟨mt, afterMt⟩ := p
          cases hrpid : splitFirst 16 afterMt with
          | none => simp only [hmt, hrpid]
          | some p =>
              obtain ⟨rpid, afterRpid⟩ := p
              cases hpid : splitFirst 16 afterRpid with
              | none => simp only [hmt, hrpid, hpid]
              | some p =>
                  -- Four fields were there, so the string was no shorter.
                  obtain ⟨pid, body⟩ := p
                  obtain ⟨rfl, h₁⟩ := splitFirst_eq_some hdest
                  obtain ⟨rfl, h₂⟩ := splitFirst_eq_some hmt
                  obtain ⟨rfl, h₃⟩ := splitFirst_eq_some hrpid
                  obtain ⟨rfl, h₄⟩ := splitFirst_eq_some hpid
                  simp only [List.length_append] at h
                  omega

/-- Whatever cannot be read breaks the protocol. -/
theorem decode_error {bytes : Bytes} {e : PsrpError} (h : decode bytes = .error e) :
    ∃ m, e = .protocol m := by
  by_cases hlong : 40 ≤ bytes.length
  · obtain ⟨dest, mt, rpid, pid, body, rfl, hdest, hmt, hrpid, hpid⟩ := header_fields hlong
    rw [decode_header body hdest hmt hrpid hpid] at h
    unfold Destination.fromU32 at h
    split_ifs at h
    · cases hs : Text.fromUtf8 (withoutBom body) <;> rw [hs] at h <;> cases h
      exact ⟨_, rfl⟩
    · cases hs : Text.fromUtf8 (withoutBom body) <;> rw [hs] at h <;> cases h
      exact ⟨_, rfl⟩
    · cases h
      exact ⟨_, rfl⟩
  · rw [decode_short (Nat.lt_of_not_le hlong)] at h
    cases h
    exact ⟨_, rfl⟩

/-- What is read was written, but for the mark. -/
theorem decode_ok {bytes : Bytes} {m : PsrpMessage} (h : decode bytes = .ok m) :
    ∃ dest mt rpid pid body : Bytes, bytes = dest ++ (mt ++ (rpid ++ (pid ++ body)))
      ∧ dest.length = 4 ∧ mt.length = 4 ∧ rpid.length = 16 ∧ pid.length = 16
      ∧ m.encode = dest ++ (mt ++ (rpid ++ (pid ++ withoutBom body))) := by
  have hlong : 40 ≤ bytes.length := by
    by_contra hshort
    rw [decode_short (Nat.lt_of_not_le hshort)] at h
    cases h
  obtain ⟨dest, mt, rpid, pid, body, rfl, hdest, hmt, hrpid, hpid⟩ := header_fields hlong
  refine ⟨dest, mt, rpid, pid, body, rfl, hdest, hmt, hrpid, hpid, ?_⟩
  rw [decode_header body hdest hmt hrpid hpid] at h
  cases hd : Destination.fromU32 (UInt32.ofNat (ofLe dest)) with
  | error e =>
      rw [hd] at h
      cases h
  | ok d =>
      rw [hd] at h
      cases hs : Text.fromUtf8 (withoutBom body) with
      | error e =>
          rw [hs] at h
          cases h
      | ok s =>
          rw [hs] at h
          cases h
          simp only [encode, toU32_of_fromU32 hd, MessageType.toU32_fromU32,
            leBytes_ofNat_ofLe hdest, leBytes_ofNat_ofLe hmt, toBytesLe_readUuid hrpid,
            toBytesLe_readUuid hpid, Text.toUtf8_fromUtf8 hs, List.append_assoc]

/-- Which byte strings are messages. -/
theorem decode_ok_iff (bytes : Bytes) :
    (∃ m, decode bytes = .ok m) ↔
      40 ≤ bytes.length ∧ (ofLe (bytes.take 4) = 1 ∨ ofLe (bytes.take 4) = 2)
        ∧ ∃ s : Text, s.toUtf8 = withoutBom (bytes.drop 40) := by
  by_cases hlong : 40 ≤ bytes.length
  · obtain ⟨dest, mt, rpid, pid, body, rfl, hdest, hmt, hrpid, hpid⟩ := header_fields hlong
    -- The bytes are the four fields of the header and the body.
    have htake : (dest ++ (mt ++ (rpid ++ (pid ++ body)))).take 4 = dest := List.take_left' hdest
    have hdrop : (dest ++ (mt ++ (rpid ++ (pid ++ body)))).drop 40 = body := by
      have hheader : (dest ++ (mt ++ (rpid ++ pid))).length = 40 := by
        simp only [List.length_append]
        omega
      have hassoc : dest ++ (mt ++ (rpid ++ (pid ++ body)))
          = (dest ++ (mt ++ (rpid ++ pid))) ++ body := by
        simp only [List.append_assoc]
      rw [hassoc, List.drop_left' hheader]
    have hlt := ofLe_lt dest
    rw [hdest] at hlt
    -- Only two numbers are destinations.
    have hcode : (ofLe dest = 1 ∨ ofLe dest = 2) ↔
        ∃ d, Destination.fromU32 (UInt32.ofNat (ofLe dest)) = .ok d := by
      rw [fromU32_ok_iff, ← UInt32.toNat_inj, ← UInt32.toNat_inj, UInt32.toNat_ofNat_of_lt' hlt]
      rfl
    rw [decode_header body hdest hmt hrpid hpid, htake, hdrop, hcode]
    constructor
    · intro h
      obtain ⟨m, h⟩ := h
      cases hd : Destination.fromU32 (UInt32.ofNat (ofLe dest)) with
      | error e =>
          rw [hd] at h
          cases h
      | ok d =>
          rw [hd] at h
          cases hs : Text.fromUtf8 (withoutBom body) with
          | error e =>
              rw [hs] at h
              cases h
          | ok s => exact ⟨hlong, ⟨d, rfl⟩, s, Text.toUtf8_fromUtf8 hs⟩
    · intro h
      obtain ⟨_, ⟨d, hd⟩, s, hs⟩ := h
      rw [hd, ← hs, Text.fromUtf8_toUtf8]
      exact ⟨_, rfl⟩
  · constructor
    · intro h
      obtain ⟨m, hm⟩ := h
      rw [decode_short (Nat.lt_of_not_le hlong)] at hm
      cases hm
    · intro h
      exact absurd h.1 hlong

/-- The codec is exact: a message is read back, a byte string is a message if
    and only if it has a header, a destination and a body in UTF-8 after at
    most one byte order mark, and what is read writes the same bytes without
    that mark. -/
theorem message_codec_exact :
    (∀ m : PsrpMessage, m.data.head? ≠ some '\uFEFF' →
      (∀ c, m.messageType = .unknown c → MessageType.fromU32 c = .unknown c) →
      decode m.encode = .ok m)
    ∧ (∀ bytes : Bytes, (∃ m, decode bytes = .ok m) ↔
      40 ≤ bytes.length ∧ (ofLe (bytes.take 4) = 1 ∨ ofLe (bytes.take 4) = 2)
        ∧ ∃ s : Text, s.toUtf8 = withoutBom (bytes.drop 40))
    ∧ ∀ (bytes : Bytes) (m : PsrpMessage), decode bytes = .ok m →
      m.encode = bytes.take 40 ++ withoutBom (bytes.drop 40) := by
  refine ⟨decode_encode, decode_ok_iff, ?_⟩
  intro bytes m h
  obtain ⟨dest, mt, rpid, pid, body, rfl, hdest, hmt, hrpid, hpid, henc⟩ := decode_ok h
  have hheader : (dest ++ (mt ++ (rpid ++ pid))).length = 40 := by
    simp only [List.length_append]
    omega
  have hassoc : dest ++ (mt ++ (rpid ++ (pid ++ body)))
      = (dest ++ (mt ++ (rpid ++ pid))) ++ body := by
    simp only [List.append_assoc]
  rw [henc, hassoc, List.take_left' hheader, List.drop_left' hheader]
  simp only [List.append_assoc]

/-- A message of an unlisted type, and what its bytes with a mark before the
    body are read as. -/
theorem message_codec_exact_marked :
    let body : Text := "<S>é</S>".toList
    let header : Bytes := leBytes 4 2 ++ leBytes 4 0x00051234 ++ List.replicate 32 0
    let m : PsrpMessage := .toServer (.unknown 0x00051234) .nil .nil body
    decode m.encode = .ok m
    ∧ ∃ m', decode (header ++ BOM ++ body.toUtf8) = .ok m' ∧ m'.encode = m.encode := by
  intro body header m
  have hmark := (message_codec_exact.2.1 (header ++ BOM ++ body.toUtf8)).mpr
    ⟨by decide, Or.inr (by decide), body, by decide⟩
  obtain ⟨m', hm'⟩ := hmark
  refine ⟨message_codec_exact.1 m (by decide) (fun c hc => by cases hc; rfl), m', hm', ?_⟩
  rw [message_codec_exact.2.2 _ m' hm']
  decide

end PsrpMessage

end Psrp

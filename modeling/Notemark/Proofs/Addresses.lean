import Notemark.Address.Pointer
import Notemark.Proofs.Checksum
import Notemark.Proofs.Regrouping
import Notemark.Proofs.TaggedEntries
import Notemark.Proofs.Text
import Notemark.Proofs.Utf8

/-!
# Written addresses

An address is written as tagged entries, whose bytes are the symbols of a Bech32 string. This module
holds

* `hex_unhex`, `bigEndian_kindBytes`, `asciiText_bytes`: keys, kinds and relays as bytes,
* `Encodable`: the pointers that have a written form,
* `values_entries`: the entries of a pointer by type,
* `ofPayload_payload`: the bytes of a pointer are read as the pointer,
* `address_read_back`: so is the written address, and it asks for the right event.
-/

namespace Notemark.Address.Pointer

/-! ## Fields as bytes -/

/-- A digit of a number in lower-case hexadecimal. -/
def IsHexDigit (c : Char) : Prop :=
  48 ≤ c.toNat ∧ c.toNat ≤ 57 ∨ 97 ≤ c.toNat ∧ c.toNat ≤ 102

instance (c : Char) : Decidable (IsHexDigit c) := inferInstanceAs (Decidable (_ ∨ _))

section Fields

variable {a b : Char} {t : Text}

theorem exists_digitChar (h : IsHexDigit a) : ∃ d < 16, a = Nat.digitChar d ∧ hexDigit a = d := by
  -- No digit lies beyond `f`, so that every character up to there can be looked at.
  have hall : ∀ n < 103, IsHexDigit (Char.ofNat n) →
      ∃ d < 16, Char.ofNat n = Nat.digitChar d ∧ hexDigit (Char.ofNat n) = d := by
    decide
  have hlt : a.toNat < 103 := by
    unfold IsHexDigit at h
    omega
  have hdigit := hall a.toNat hlt
  rw [Char.ofNat_toNat] at hdigit
  exact hdigit h

/-- A byte has two digits. -/
theorem hexDigits_byte : ∀ d < 16, ∀ e < 16,
    Text.hexDigits 2 (d * 16 + e) = [Nat.digitChar d, Nat.digitChar e] := by
  decide

theorem hex_pair (ha : IsHexDigit a) (hb : IsHexDigit b) :
    Text.hexDigits 2 (hexDigit a * 16 + hexDigit b).toUInt8.toNat = [a, b] := by
  rcases exists_digitChar ha with ⟨d, hd, rfl, hda⟩
  rcases exists_digitChar hb with ⟨e, he, rfl, heb⟩
  have hbyte : (d * 16 + e).toUInt8.toNat = d * 16 + e := Text.toNat_toUInt8 (by omega)
  rw [hda, heb, hbyte, hexDigits_byte d hd e he]

theorem length_unhex (t : Text) : (unhex t).length = t.length / 2 := by
  fun_induction unhex t with
  | case1 a b t ih =>
    simp only [List.length_cons, ih]
    omega
  | case2 t h =>
    match t with
    | [] => rfl
    | [_] => simp
    | a :: b :: t => exact absurd rfl (h a b t)

/-- An even number of digits is read back from the bytes that they stand for. -/
theorem hex_unhex (heven : 2 ∣ t.length) (h : ∀ c ∈ t, IsHexDigit c) : hex (unhex t) = t := by
  fun_induction unhex t with
  | case1 a b t ih =>
    have heven' : 2 ∣ t.length := by
      simp only [List.length_cons] at heven
      omega
    have hrest : hex (unhex t) = t := ih heven' fun c hc => h c (by simp [hc])
    have hfirst := hex_pair (h a (by simp)) (h b (by simp))
    unfold hex at hrest ⊢
    rw [List.flatMap_cons, hfirst, hrest]
    rfl
  | case2 t hshort =>
    match t with
    | [] => rfl
    | [_] => simp at heven
    | a :: b :: t => exact absurd rfl (hshort a b t)

theorem bigEndian_kindBytes {kind : Nat} (h : kind < 0x100000000) :
    bigEndian (kindBytes kind) = kind := by
  have hfirst : (kind / 0x1000000).toUInt8.toNat = kind / 0x1000000 :=
    Text.toNat_toUInt8 (by omega)
  simp only [bigEndian, kindBytes, List.foldl_cons, List.foldl_nil, hfirst]
  rw [Text.toNat_toUInt8 (by omega), Text.toNat_toUInt8 (by omega), Text.toNat_toUInt8 (by omega)]
  omega

theorem asciiText_bytes (h : ∀ c ∈ t, c.toNat < 128) :
    asciiText (t.map fun c => c.toNat.toUInt8) = t := by
  have hchar : ∀ c ∈ t, (if c.toNat.toUInt8.toNat < 128 then Char.ofNat c.toNat.toUInt8.toNat
      else Char.ofNat 0xFFFD) = c := by
    intro c hc
    have hlt := h c hc
    rw [Text.toNat_toUInt8 (by omega), if_pos hlt, Char.ofNat_toNat]
  unfold asciiText
  rw [List.map_map]
  exact (List.map_congr_left hchar).trans (List.map_id' t)

end Fields

/-! ## Pointers as bytes -/

/-- The pointers that have a written form: an entry holds at most 255 bytes, a key has 32 bytes and a
kind has four. -/
structure Encodable (p : Pointer) : Prop where
  identifier : (Text.utf8 p.identifier).length ≤ 255
  length_pubkey : p.pubkey.length = 64
  pubkey : ∀ c ∈ p.pubkey, IsHexDigit c
  kind : p.kind < 0x100000000
  relays : ∀ r ∈ p.relays, r.length ≤ 255 ∧ ∀ c ∈ r, c.toNat < 128

/-- The entries of a pointer, field by field. -/
def entries (p : Pointer) : List Tlv.Entry :=
  [Text.utf8 p.identifier].map (Tlv.Entry.mk identifierType) ++
    (p.relays.map (List.map fun c => c.toNat.toUInt8)).map (Tlv.Entry.mk relayType) ++
      [unhex p.pubkey].map (Tlv.Entry.mk authorType) ++
        [kindBytes p.kind].map (Tlv.Entry.mk kindType)

section Payload

variable {p : Pointer} {e : Tlv.Entry}

theorem payload_eq_encode (p : Pointer) : p.payload = Tlv.encode p.entries := by
  simp [payload, entries, Function.comp_def]

theorem length_value_le (h : p.Encodable) (he : e ∈ p.entries) : e.value.length ≤ 255 := by
  simp only [entries, List.mem_append, List.mem_map, List.mem_singleton] at he
  rcases he with ((⟨_, rfl, rfl⟩ | ⟨_, ⟨r, hr, rfl⟩, rfl⟩) | ⟨_, rfl, rfl⟩) | ⟨_, rfl, rfl⟩
  · exact h.identifier
  · simpa using (h.relays r hr).1
  · simp [length_unhex, h.length_pubkey]
  · simp [kindBytes]

theorem values_append (es es' : List Tlv.Entry) (type : UInt8) :
    Tlv.values (es ++ es') type = Tlv.values es type ++ Tlv.values es' type := by
  simp [Tlv.values]

theorem values_map_mk (vs : List (List UInt8)) (type type' : UInt8) :
    Tlv.values (vs.map (Tlv.Entry.mk type)) type' = if type = type' then vs else [] := by
  by_cases h : type = type' <;> simp [Tlv.values, List.filter_map, Function.comp_def, h]

/-- The types differ, so that the values of a type are the ones of its own field. -/
theorem values_entries (p : Pointer) :
    Tlv.values p.entries identifierType = [Text.utf8 p.identifier] ∧
    Tlv.values p.entries relayType = p.relays.map (List.map fun c => c.toNat.toUInt8) ∧
    Tlv.values p.entries authorType = [unhex p.pubkey] ∧
    Tlv.values p.entries kindType = [kindBytes p.kind] := by
  simp only [entries, values_append, values_map_mk]
  simp [identifierType, relayType, authorType, kindType]

theorem map_asciiText_values (h : p.Encodable) :
    (Tlv.values p.entries relayType).map asciiText = p.relays := by
  have hrelay : ∀ r ∈ p.relays, asciiText (r.map fun c => c.toNat.toUInt8) = r :=
    fun r hr => asciiText_bytes (h.relays r hr).2
  rw [(values_entries p).2.1, List.map_map]
  exact (List.map_congr_left hrelay).trans (List.map_id' p.relays)

/-- A pointer is read back from its bytes. -/
theorem ofPayload_payload (h : p.Encodable) : ofPayload p.payload = .ok p := by
  have hparse : Tlv.parse p.payload = .ok p.entries := by
    rw [payload_eq_encode]
    exact Tlv.parse_complete (Tlv.complete_encode fun e he => length_value_le h he)
  obtain ⟨hidentifier, -, hauthor, hkind⟩ := values_entries p
  have heven : 2 ∣ p.pubkey.length := by
    rw [h.length_pubkey]
    decide
  have hlength : (unhex p.pubkey).length = 32 := by rw [length_unhex, h.length_pubkey]
  unfold ofPayload
  simp only [hparse, hidentifier, hauthor, hkind, map_asciiText_values h, hlength,
    Text.ofUtf8_utf8, hex_unhex heven h.pubkey, bigEndian_kindBytes h.kind]
  rfl

end Payload

/-! ## Written addresses -/

theorem isLabel_labelText : Bech32.IsLabel labelText where
  ne_nil := by decide
  plain := by
    have hall : labelText.all (fun c => decide (Bech32.IsPlain c)) = true := by decide
    simpa using hall

/-- Nothing in a written address is blank. -/
theorem strip_encode (p : Pointer) : Text.strip p.encode = p.encode := by
  apply Text.strip_of_not_blank
  intro c hc
  obtain ⟨hlow, hhigh⟩ := (Bech32.plain_of_mem_encode isLabel_labelText hc).1
  simp only [Text.isBlank, Bool.or_eq_false_iff, Bool.and_eq_false_iff, beq_eq_false_iff_ne,
    decide_eq_false_iff_not]
  omega

theorem decode_written {p : Pointer} (h : p.Encodable) : decode p.encode = .ok p := by
  have hstring : Bech32.decode p.encode = some (labelText, Bech32.ofBytes p.payload) :=
    Bech32.decode_encode isLabel_labelText _
  unfold decode
  simp only [strip_encode, hstring, Bech32.toBytes?_ofBytes, ofPayload_payload h]
  rfl

/-- A written address is read as the pointer it was made of, and it is expanded to the filter for the
one event with the kind, author and identifier of the pointer. -/
theorem address_read_back (p : Pointer) (h : p.Encodable) :
    decode p.encode = .ok p ∧ ∀ first, queryOf? p.encode first = some (.object <|
      [("kinds", .list [.int p.kind]), ("authors", .strings [String.ofList p.pubkey]),
        ("#d", .strings [String.ofList p.identifier]), ("limit", .int 1)] ++
        if first then [("pipe", .strings ["first"])] else []) := by
  have hdecode := decode_written h
  refine ⟨hdecode, fun first => ?_⟩
  unfold queryOf?
  rw [hdecode]
  rfl

/-- Two relays, one of them empty, and an identifier beyond ASCII. -/
theorem address_read_back_relays :
    decode (encode ⟨['c', 'a', 'f', 'é'], List.replicate 64 'a', 30023, [['w', 's'], []]⟩) =
      .ok ⟨['c', 'a', 'f', 'é'], List.replicate 64 'a', 30023, [['w', 's'], []]⟩ :=
  (address_read_back _
    { identifier := by decide
      length_pubkey := by decide
      pubkey := by
        intro c hc
        rw [List.eq_of_mem_replicate hc]
        decide
      kind := by decide
      relays := by simp }).1

end Notemark.Address.Pointer

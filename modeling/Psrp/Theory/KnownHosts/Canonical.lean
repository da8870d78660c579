import Psrp.Theory.KnownHosts.HostName

/-!
# Canonical Host Names

The name a host is looked up under depends on what the host means and not on
how it is spelled. The case of a host does not matter, since no reader of
addresses looks at it and what is no address is put in lower case
(`canonicalHost_toLower`). The text of an address is read back as the address,
so a canonical name is its own canonical name (`canonicalHost_canonicalHost`).
And what `inet_aton(3)` reads is printed as the resolver's address, whichever
of the two readers comes to see it (`canonicalHost_spells`).

## Main definitions

* `Spells`: The hosts that are an IPv4 address.

## Theorems

* `canonicalHost_toLower`, `canonicalHost_canonicalHost`, `canonicalHost_spells`.
* `numeric_host_names`: All of it.
-/

namespace Psrp

open Radix

/-- Lower case keeps what marks a number as hexadecimal, and brings in no mark. -/
theorem toLower_eq_x {c : Char} : c.toLower = 'x' ∨ c.toLower = 'X' ↔ c = 'x' ∨ c = 'X' := by
  have hletters : ∀ n, 65 ≤ n → n ≤ 90 → ((Char.ofNat n).toLower = 'x' ∨
      (Char.ofNat n).toLower = 'X' ↔ Char.ofNat n = 'x' ∨ Char.ofNat n = 'X') := by
    intro n hlo hhi
    interval_cases n <;> decide
  rcases Text.toLower_induction (P := fun c => c.toLower = 'x' ∨ c.toLower = 'X' ↔
    c = 'x' ∨ c = 'X') hletters c with hc | hc
  · exact hc
  · rw [hc]

theorem splitRadix_marked {c : Char} (hc : c = 'x' ∨ c = 'X') (t : Text) :
    splitRadix ('0' :: c :: t) = (t, 16) := by
  rcases hc with rfl | rfl
  · rfl
  · rfl

theorem splitRadix_octal {c : Char} (hc : ¬ (c = 'x' ∨ c = 'X')) (t : Text) :
    splitRadix ('0' :: c :: t) = (c :: t, 8) := by
  have hlen : 1 < Text.utf8Len ('0' :: c :: t) := by
    rw [Text.utf8Len_cons, Text.utf8Len_cons]
    have hzero := Char.utf8Size_pos '0'
    have hpos := Char.utf8Size_pos c
    omega
  unfold splitRadix
  split
  · rename_i heq
    cases heq
    exact absurd (.inl rfl) hc
  · rename_i heq
    cases heq
    exact absurd (.inr rfl) hc
  · rename_i heq
    cases heq
    exact if_pos hlen
  · rename_i hzero
    exact absurd rfl (hzero (c :: t))

theorem splitRadix_decimal {t : Text} (h : ∀ c rest, t ≠ '0' :: c :: rest) :
    splitRadix t = (t, 10) := by
  unfold splitRadix
  split
  · exact absurd rfl (h _ _)
  · exact absurd rfl (h _ _)
  · rename_i octal _ _
    rcases octal with _ | ⟨c, rest⟩
    · rfl
    · exact absurd rfl (h c rest)
  · rfl

/-- The radix of a number does not depend on its case. -/
theorem splitRadix_toLower (t : Text) :
    splitRadix (t.map Char.toLower) = ((splitRadix t).1.map Char.toLower, (splitRadix t).2) := by
  by_cases h : ∃ c rest, t = '0' :: c :: rest
  · rcases h with ⟨c, rest, rfl⟩
    have hmap : ('0' :: c :: rest).map Char.toLower
        = '0' :: c.toLower :: rest.map Char.toLower := rfl
    rw [hmap]
    by_cases hc : c = 'x' ∨ c = 'X'
    · rw [splitRadix_marked hc, splitRadix_marked (toLower_eq_x.mpr hc)]
    · rw [splitRadix_octal hc, splitRadix_octal (fun h => hc (toLower_eq_x.mp h))]
      rfl
  · have hdecimal : ∀ c rest, t ≠ '0' :: c :: rest := fun c rest heq => h ⟨c, rest, heq⟩
    rw [splitRadix_decimal hdecimal, splitRadix_decimal]
    intro c rest heq
    rcases List.map_eq_cons_iff.mp heq with ⟨z, t', rfl, hz, ht'⟩
    rcases List.map_eq_cons_iff.mp ht' with ⟨c', rest', rfl, -, -⟩
    rw [Text.toLower_eq_iff (by decide)] at hz
    exact hdecimal c' rest' (by rw [hz])

theorem unbracketed_of_ne {c : Char} {h : Text} (hc : c ≠ '[') :
    unbracketed (c :: h) = c :: h := by
  unfold unbracketed
  split
  · rename_i heq
    cases heq
    exact absurd rfl hc
  · rfl

theorem map_toLower_toLower (s : Text) :
    (s.map Char.toLower).map Char.toLower = s.map Char.toLower := by
  rw [List.map_map]
  exact List.map_congr_left fun c _ => Text.toLower_toLower c

theorem inetPart_toLower (t : Text) : inetPart (t.map Char.toLower) = inetPart t := by
  refine Option.ext fun a => ?_
  rw [inetPart_iff, inetPart_iff, isNumber_iff_splitRadix, isNumber_iff_splitRadix,
    splitRadix_toLower, reads_toLower, ne_eq, List.map_eq_nil_iff]

theorem inetParts_toLower (texts : List Text) (parts : List UInt32) :
    inetParts (texts.map (List.map Char.toLower)) parts = inetParts texts parts := by
  induction texts generalizing parts with
  | nil => rfl
  | cons t texts ih =>
      rw [List.map_cons, inetParts, inetParts, inetPart_toLower]
      simp only [ih]

theorem splitOn_toLower {sep : Char} (h : sep.isAlpha = false) (s : Text) :
    List.splitOn sep (s.map Char.toLower) = (List.splitOn sep s).map (List.map Char.toLower) :=
  Text.splitOn_map (fun _ => Text.toLower_eq_iff h) s

theorem parseInetAton_toLower (s : Text) :
    parseInetAton (s.map Char.toLower) = parseInetAton s := by
  rw [parseInetAton, parseInetAton, splitOn_toLower (by decide), inetParts_toLower]

theorem octet_toLower (t : Text) : octet (t.map Char.toLower) = octet t := by
  have hhead : (t.map Char.toLower).head? = some '0' ↔ t.head? = some '0' := by
    rw [List.head?_map, Option.map_eq_some_iff]
    simp only [Text.toLower_eq_iff (show '0'.isAlpha = false by decide), exists_eq_right]
  refine Option.ext fun n => ?_
  rw [octet_iff, octet_iff, reads_toLower, List.length_map, hhead, ne_eq, List.map_eq_nil_iff]

theorem parseIpv4_toLower (s : Text) : parseIpv4 (s.map Char.toLower) = parseIpv4 s := by
  have hread : (List.splitOn '.' (s.map Char.toLower)).mapM octet
      = (List.splitOn '.' s).mapM octet := by
    refine Option.ext fun ns => ?_
    rw [splitOn_toLower (by decide), mapM_eq_some_iff, mapM_eq_some_iff,
      List.forall₂_map_left_iff]
    simp only [octet_toLower]
  rw [parseIpv4, parseIpv4, hread]

theorem unbracketed_toLower (host : Text) :
    unbracketed (host.map Char.toLower) = (unbracketed host).map Char.toLower := by
  rcases host with _ | ⟨c, h⟩
  · rfl
  · by_cases hc : c = '['
    · subst hc
      have hlast : (h.map Char.toLower).getLast? = some ']' ↔ h.getLast? = some ']' := by
        rw [List.getLast?_map, Option.map_eq_some_iff]
        simp only [Text.toLower_eq_iff (show ']'.isAlpha = false by decide), exists_eq_right]
      have hopen : ∀ h : Text, unbracketed ('[' :: h)
          = if h.getLast? = some ']' then h.dropLast else '[' :: h := fun _ => rfl
      have hmap : ('[' :: h).map Char.toLower = '[' :: h.map Char.toLower := rfl
      rw [hmap, hopen, hopen]
      by_cases hclose : h.getLast? = some ']'
      · rw [if_pos hclose, if_pos (hlast.mpr hclose), List.map_dropLast]
      · rw [if_neg hclose, if_neg (fun h => hclose (hlast.mp h)), hmap]
    · rw [unbracketed_of_ne hc, List.map_cons,
        unbracketed_of_ne (fun h => hc ((Text.toLower_eq_iff (by decide)).mp h))]

variable {p : IpPlatform}

theorem IpPlatform.Lawful.parseIp_toLower (h : p.Lawful) (s : Text) :
    p.parseIp (s.map Char.toLower) = p.parseIp s := by
  rw [IpPlatform.parseIp, IpPlatform.parseIp, parseIpv4_toLower, h.parse_lower]

/-- The case of a host does not matter. -/
theorem canonicalHost_toLower (h : p.Lawful) (host : Text) :
    canonicalHost p (host.map Char.toLower) = canonicalHost p host := by
  rw [canonicalHost, canonicalHost, unbracketed_toLower, h.parseIp_toLower, parseInetAton_toLower,
    map_toLower_toLower]

/-- A text of an address is read back, and has no bracket around it. -/
theorem IpPlatform.Lawful.parseIp_printIp (h : p.Lawful) (ip : IpAddr) :
    p.parseIp (p.printIp ip) = some ip ∧ '[' ∉ p.printIp ip := by
  rcases ip with ip | ip
  · have hread := parseIpv4_toText ip
    refine ⟨?_, (not_mem_of_inetAton (parseInetAton_of_parseIpv4 hread)).2⟩
    rw [IpPlatform.parseIp, IpPlatform.printIp, hread]
  · have hchars := h.parse_chars _ ip (h.parse_print ip)
    refine ⟨?_, hchars.2⟩
    have hnot : parseIpv4 (p.printIpv6 ip) = none := by
      rw [Option.eq_none_iff_forall_ne_some]
      intro a ha
      exact (not_mem_of_inetAton (parseInetAton_of_parseIpv4 ha)).1 hchars.1
    rw [IpPlatform.parseIp, IpPlatform.printIp, hnot, h.parse_print]
    rfl

/-- A host without brackets is read as it is. -/
theorem unbracketed_of_not_mem {s : Text} (h : '[' ∉ s) : unbracketed s = s := by
  rcases s with _ | ⟨c, s⟩
  · rfl
  · refine unbracketed_of_ne ?_
    rintro rfl
    exact h List.mem_cons_self

theorem canonicalHost_printIp (h : p.Lawful) (ip : IpAddr) :
    canonicalHost p (p.printIp ip) = p.printIp ip := by
  rcases h.parseIp_printIp ip with ⟨hread, hbracket⟩
  rw [canonicalHost, unbracketed_of_not_mem hbracket, hread]

/-- A canonical name is its own canonical name. -/
theorem canonicalHost_canonicalHost (h : p.Lawful) (host : Text) :
    canonicalHost p (canonicalHost p host) = canonicalHost p host := by
  rcases hip : p.parseIp (unbracketed host) with _ | ip
  · rcases hinet : parseInetAton host with _ | ip
    · -- Not an address, nor in lower case.
      have hlower : canonicalHost p host = host.map Char.toLower := by
        rw [canonicalHost, hip, hinet]
      rw [hlower, canonicalHost_toLower h, hlower]
    · have heq : canonicalHost p host = p.printIp (.v4 ip) := by
        rw [canonicalHost, hip, hinet]
        rfl
      rw [heq, canonicalHost_printIp h]
  · have heq : canonicalHost p host = p.printIp ip := by rw [canonicalHost, hip]
    rw [heq, canonicalHost_printIp h]

/-- The hosts that are an IPv4 address, to `std` or to `inet_aton(3)`. -/
def Spells (p : IpPlatform) (host : Text) (ip : Ipv4Addr) : Prop :=
  p.parseIp (unbracketed host) = some (.v4 ip) ∨ parseInetAton host = some ip

/-- Every spelling of an address has the address for its canonical name. -/
theorem canonicalHost_spells (h : p.Lawful) {host : Text} {ip : Ipv4Addr}
    (hspells : Spells p host ip) : canonicalHost p host = ip.toText := by
  rcases hspells with hip | hinet
  · rw [canonicalHost, hip]
    rfl
  · rcases not_mem_of_inetAton hinet with ⟨hcolon, hbracket⟩
    rw [canonicalHost, unbracketed_of_not_mem hbracket]
    rcases hip : p.parseIp host with _ | found
    · rw [hinet]
    · -- `std` agrees, since it reads no numeric host as an IPv6 address.
      unfold IpPlatform.parseIp at hip
      rcases hv4 : parseIpv4 host with _ | v4
      · rw [hv4] at hip
        rcases Option.map_eq_some_iff.mp hip with ⟨v6, hv6, -⟩
        exact absurd (h.parse_chars host v6 hv6).1 hcolon
      · rw [hv4] at hip
        cases hip
        cases hinet.symm.trans (parseInetAton_of_parseIpv4 hv4)
        rfl

namespace IpPlatform

theorem readGroup_iff {t : Text} {g : UInt16} :
    readGroup t = some g ↔ t ≠ [] ∧ t.length ≤ 4 ∧ Reads 16 t g.toNat := by
  unfold readGroup
  by_cases hcheck : t = [] ∨ 4 < t.length
  · rw [if_pos hcheck]
    refine iff_of_false (fun h => by cases h) ?_
    rintro ⟨hne, hlen, -⟩
    rcases hcheck with h | h
    · exact hne h
    · omega
  · rw [not_or] at hcheck
    rw [if_neg (not_or.mpr hcheck), Option.map_eq_some_iff]
    constructor
    · rintro ⟨n, hn, rfl⟩
      rcases (accumulate_iff (by decide)).mp hn with ⟨hlt, hreads⟩
      refine ⟨hcheck.1, Nat.le_of_not_lt hcheck.2, ?_⟩
      rwa [UInt16.toNat_ofNat_of_lt' hlt]
    · rintro ⟨-, -, hreads⟩
      exact ⟨g.toNat, (accumulate_iff (by decide)).mpr ⟨g.toNat_lt, hreads⟩, UInt16.ofNat_toNat⟩

/-- A group holds hexadecimal digits only. -/
theorem not_mem_of_readGroup {t : Text} {g : UInt16} (h : readGroup t = some g) {c : Char}
    (hc : digit 16 c = none) : c ∉ t := by
  intro hmem
  have hsome := digits_of_reads (readGroup_iff.mp h).2.2 c hmem
  rw [hc] at hsome
  cases hsome

theorem basic_lawful : basic.Lawful where
  parse_print ip := by
    have hgroup : ∀ g : UInt16, readGroup (Nat.toDigits 16 g.toNat) = some g := by
      intro g
      refine readGroup_iff.mpr ⟨Nat.toDigits_ne_nil, ?_, reads_toDigits (by decide) (by decide) _⟩
      exact (Nat.length_toDigits_le_iff (by decide) (by decide)).mpr g.toNat_lt
    have hne : ip.toList.map (fun group => Nat.toDigits 16 group.toNat) ≠ [] := by
      rw [ne_eq, List.map_eq_nil_iff, ← List.length_eq_zero_iff, Vector.length_toList]
      decide
    -- Every group is read back from its digits.
    have hread : (ip.toList.map fun group => Nat.toDigits 16 group.toNat).mapM readGroup
        = some ip.toList := by
      rw [mapM_eq_some_iff, List.forall₂_map_left_iff]
      exact List.forall₂_same.mpr fun g _ => hgroup g
    simp only [basic]
    rw [List.splitOn_intercalate ':' ?_ hne, hread]
    · simp only [Vector.length_toList, dif_pos]
      rfl
    · intro t ht
      rcases List.mem_map.mp ht with ⟨g, -, rfl⟩
      exact not_mem_of_readGroup (hgroup g) (by decide)
  parse_lower s := by
    -- A digit reads the same in either case.
    have hread : (List.splitOn ':' (s.map Char.toLower)).mapM readGroup
        = (List.splitOn ':' s).mapM readGroup := by
      refine Option.ext fun gs => ?_
      rw [splitOn_toLower (by decide), mapM_eq_some_iff, mapM_eq_some_iff,
        List.forall₂_map_left_iff]
      simp only [readGroup_iff, reads_toLower, List.length_map, ne_eq, List.map_eq_nil_iff]
    simp only [basic, hread]
  parse_chars s ip h := by
    simp only [basic] at h
    split at h
    · rename_i groups hread
      rw [mapM_eq_some_iff] at hread
      split at h
      · rename_i hlen
        constructor
        · -- Without a colon there would be one group only.
          by_contra hcolon
          rw [List.splitOn_eq_singleton hcolon] at hread
          have hlength := hread.length_eq
          rw [hlen] at hlength
          cases hlength
        · intro hmem
          rw [← @List.intercalate_splitOn _ s _ _ ':'] at hmem
          rcases mem_intercalate hmem with ⟨t, ht, hct⟩ | hmem
          · rcases List.forall₂_iff_get.mp hread with ⟨hlength, hget⟩
            rcases List.getElem_of_mem ht with ⟨i, hi, rfl⟩
            exact not_mem_of_readGroup (hget i hi (hlength ▸ hi)) (by decide) hct
          · exact absurd (List.mem_singleton.mp hmem) (by decide)
      · cases h
    · cases h

end IpPlatform

/-- Numeric host names are read as `inet_aton(3)` reads them, and a name to
    look up depends on the address only. -/
theorem numeric_host_names (p : IpPlatform) (h : p.Lawful) :
    (∀ s a, (parseInetAton s).map UInt32.toNat = some a ↔ InetAton s a) ∧
    (∀ (leading : List UInt32) (n shift : UInt32), (n, shift) ∈ leading.zip [24, 16, 8] →
      n.toNat ≤ 255 → (n <<< shift).toNat = n.toNat * 2 ^ shift.toNat) ∧
    (∀ host, canonicalHost p (canonicalHost p host) = canonicalHost p host) ∧
    (∀ host host' : Text, host.map Char.toLower = host'.map Char.toLower →
      canonicalHost p host = canonicalHost p host') ∧
    (∀ host host' ip, Spells p host ip → Spells p host' ip →
      ∀ port, knownHostsLookupName p host port = knownHostsLookupName p host' port) := by
  refine ⟨parseInetAton_iff, fun _ _ _ => inetAton_shifts, canonicalHost_canonicalHost h, ?_, ?_⟩
  · intro host host' hcase
    rw [← canonicalHost_toLower h host, hcase, canonicalHost_toLower h host']
  · intro host host' ip hhost hhost' port
    rw [knownHostsLookupName, knownHostsLookupName, canonicalHost_spells h hhost,
      canonicalHost_spells h hhost']

/-- Two spellings of the loopback address. -/
theorem numeric_host_names_loopback :
    knownHostsLookupName .basic "127.1".toList 22
      = knownHostsLookupName .basic "0x7F.0.0.1".toList 22 :=
  (numeric_host_names .basic IpPlatform.basic_lawful).2.2.2.2 _ _ 0x7F000001
    (.inr (by decide)) (.inr (by decide)) 22

end Psrp

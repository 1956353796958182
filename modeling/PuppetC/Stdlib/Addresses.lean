import PuppetC.Sscanf

/-!
# Validators for domain names and addresses

`is_domain_name` walks through a text label by label. `is_ip_address` reads four numbers with
dots between them and compares the text with their numerals; failing that, it takes any text of
hexadecimal digits and colons with a colon in it for an IPv6 address.

## Main definitions

* `isDomainName`, `isIpAddress`: `puppet_func_is_domain_name`, `puppet_func_is_ip_address`.
* `IsDomainName`, `IsIpv4`, `IsIpv6`: the languages they are for.

## Main results

* `isDomainName_iff`: the domain names that are accepted.
* `isDottedQuad_iff`: the IPv4 addresses that are accepted.
* `validators_right_iff`: the texts on which both validators are right.
-/

namespace PuppetC

/-! ### The validators -/

/-- A character of a label. -/
def isLabelChar (c : Char) : Bool := c.isAlphanum || c = '-'

/-- Read a label; nothing if it has another character. -/
def readLabel : List Char → Option (List Char × List Char)
  | [] => some ([], [])
  | c :: cs =>
    if c = '.' then some ([], c :: cs)
    else if isLabelChar c then (readLabel cs).map fun r ↦ (c :: r.1, r.2)
    else none

/-- A label ends at a dot or at the end of the text. -/
theorem readLabel_spec {cs label rest : List Char} (h : readLabel cs = some (label, rest)) :
    cs = label ++ rest ∧ (∀ c ∈ label, isLabelChar c ∧ c ≠ '.') ∧ (∀ c ∈ rest.head?, c = '.') := by
  induction cs generalizing label rest with
  | nil =>
    cases h
    simp
  | cons c cs ih =>
    rw [readLabel] at h
    split_ifs at h with hdot hchar
    · cases h
      simp [hdot]
    · obtain ⟨r, hr, heq⟩ := Option.map_eq_some_iff.1 h
      obtain ⟨rfl, hlabel, hrest⟩ := ih hr
      cases heq
      exact ⟨rfl, List.forall_mem_cons.2 ⟨⟨hchar, hdot⟩, hlabel⟩, hrest⟩

/-- The length of a label and its hyphens. -/
def labelFits (label : List Char) : Bool :=
  label.length ≠ 0 && label.length ≤ 63 && label.head? ≠ some '-' && label.getLast? ≠ some '-'

/-- The labels of a domain name, one after the other. -/
def checkLabels (cs : List Char) : Bool :=
  if cs = [] then true
  else
    match _h : readLabel cs with
    | none => false
    | some (label, rest) => if labelFits label then checkLabels rest.tail else false
  termination_by cs.length
  decreasing_by
    have hne : cs ≠ [] := by assumption
    have hlen := congrArg List.length (readLabel_spec _h).1
    have hpos := List.length_pos_of_ne_nil hne
    rw [List.length_append] at hlen
    rw [List.length_tail]
    cases hrest : rest.length with
    | zero => simpa using hpos
    | succ n => omega

/-- `puppet_func_is_domain_name`, of a string. -/
def isDomainName (domain : List Char) : Bool :=
  if domain.length = 0 ∨ 253 < domain.length then false else checkLabels domain

/-- What `%d` stores of a number: an `int` as it is, and something for any other. -/
structure IntConversion where
  store : ℤ → ℤ
  store_of_mem : ∀ n, -2 ^ 31 ≤ n → n < 2 ^ 31 → store n = n

/-- Four numbers that are the octets of an address and write as they were read. -/
def isDottedQuad (conv : IntConversion) (addr : List Char) : Bool :=
  match scanDotted 4 addr with
  | [a, b, c, d] =>
    let octets := [a, b, c, d].map conv.store
    (octets.all fun n ↦ 0 ≤ n && n ≤ 255) && ['.'].intercalate (octets.map formatLong) = addr
  | _ => false

/-- `puppet_func_is_ip_address`, of a string. -/
def isIpAddress (conv : IntConversion) (addr : List Char) : Bool :=
  isDottedQuad conv addr ||
    addr.contains ':' && addr.all fun c ↦ isHexDigit c || c = ':'

/-! ### Domain names -/

/-- One to 63 letters, digits and inner hyphens. -/
structure IsLabel (label : List Char) : Prop where
  pos : 1 ≤ label.length
  le : label.length ≤ 63
  chars : ∀ c ∈ label, c.isAlphanum ∨ c = '-'
  head : label.head? ≠ some '-'
  last : label.getLast? ≠ some '-'

/-- Labels with dots between them, of at most 253 characters, with at most one trailing dot. -/
def IsDomainName (s : List Char) : Prop :=
  1 ≤ s.length ∧ s.length ≤ 253 ∧ ∃ labels, labels ≠ [] ∧ (∀ l ∈ labels, IsLabel l) ∧
    (s = ['.'].intercalate labels ∨ s = ['.'].intercalate labels ++ ['.'])

variable {cs label rest : List Char}

theorem isLabelChar_iff {c : Char} : isLabelChar c ↔ c.isAlphanum ∨ c = '-' := by
  simp [isLabelChar]

theorem ne_dot_of_isLabelChar {c : Char} (h : isLabelChar c) : c ≠ '.' := by
  rintro rfl
  exact absurd h (by decide)

/-- A label with a dot or nothing behind it is read. -/
theorem readLabel_append (hlabel : ∀ c ∈ label, isLabelChar c) (hrest : ∀ c ∈ rest.head?, c = '.') :
    readLabel (label ++ rest) = some (label, rest) := by
  induction label with
  | nil =>
    cases rest with
    | nil => rfl
    | cons c rest =>
      rw [List.nil_append, readLabel, if_pos (hrest c rfl)]
  | cons c label ih =>
    obtain ⟨hc, hlabel⟩ := List.forall_mem_cons.1 hlabel
    rw [List.cons_append, readLabel, if_neg (ne_dot_of_isLabelChar hc), if_pos hc, ih hlabel]
    rfl

theorem labelFits_iff (hlabel : ∀ c ∈ label, isLabelChar c) : labelFits label ↔ IsLabel label := by
  simp only [labelFits, Bool.and_eq_true, decide_eq_true_eq]
  constructor
  · rintro ⟨⟨⟨hpos, hle⟩, hhead⟩, hlast⟩
    exact ⟨Nat.one_le_iff_ne_zero.2 hpos, hle, fun c hc ↦ isLabelChar_iff.1 (hlabel c hc), hhead,
      hlast⟩
  · rintro ⟨hpos, hle, -, hhead, hlast⟩
    exact ⟨⟨⟨Nat.one_le_iff_ne_zero.1 hpos, hle⟩, hhead⟩, hlast⟩

theorem checkLabels_of_readLabel (hcs : cs ≠ []) (h : readLabel cs = some (label, rest)) :
    checkLabels cs = (labelFits label && checkLabels rest.tail) := by
  rw [checkLabels, if_neg hcs]
  split
  · next h' =>
    rw [h] at h'
    cases h'
  · next h' =>
    rw [h] at h'
    cases h'
    cases labelFits label <;> rfl

/-- Labels with dots between them are checked one after the other. -/
theorem checkLabels_intercalate {labels : List (List Char)} (hne : labels ≠ [])
    (hlabels : ∀ l ∈ labels, IsLabel l) {tail : List Char} (htail : tail = [] ∨ tail = ['.']) :
    checkLabels (['.'].intercalate labels ++ tail) = true := by
  induction labels with
  | nil => exact absurd rfl hne
  | cons label labels ih =>
    obtain ⟨hlabel, hlabels⟩ := List.forall_mem_cons.1 hlabels
    have hchars : ∀ c ∈ label, isLabelChar c := fun c hc ↦ isLabelChar_iff.2 (hlabel.chars c hc)
    have hstart (rest : List Char) : label ++ rest ≠ [] :=
      List.append_ne_nil_of_left_ne_nil (List.ne_nil_of_length_pos hlabel.pos) rest
    cases labels with
    | nil =>
      have hread : readLabel (label ++ tail) = some (label, tail) :=
        readLabel_append hchars (by rcases htail with rfl | rfl <;> simp)
      rw [List.intercalate_singleton, checkLabels_of_readLabel (hstart tail) hread,
        (labelFits_iff hchars).2 hlabel, Bool.true_and]
      rcases htail with rfl | rfl <;> rw [checkLabels] <;> rfl
    | cons label' labels =>
      have hread : readLabel (label ++ '.' :: (['.'].intercalate (label' :: labels) ++ tail)) =
          some (label, '.' :: (['.'].intercalate (label' :: labels) ++ tail)) :=
        readLabel_append hchars (by simp)
      rw [List.intercalate_cons_cons, List.append_assoc, List.append_assoc, List.singleton_append,
        checkLabels_of_readLabel (hstart _) hread, (labelFits_iff hchars).2 hlabel, Bool.true_and,
        List.tail_cons]
      exact ih (List.cons_ne_nil _ _) hlabels

/-- What the check of labels accepts. -/
theorem exists_labels (h : checkLabels cs = true) (hcs : cs ≠ []) :
    ∃ labels, labels ≠ [] ∧ (∀ l ∈ labels, IsLabel l) ∧
      (cs = ['.'].intercalate labels ∨ cs = ['.'].intercalate labels ++ ['.']) := by
  induction hn : cs.length using Nat.strong_induction_on generalizing cs with
  | _ n ih =>
    cases hread : readLabel cs with
    | none =>
      rw [checkLabels, if_neg hcs] at h
      split at h
      · cases h
      · next h' => rw [hread] at h'; cases h'
    | some r =>
      obtain ⟨label, rest⟩ := r
      obtain ⟨rfl, hchars, hrest⟩ := readLabel_spec hread
      rw [checkLabels_of_readLabel hcs hread, Bool.and_eq_true,
        labelFits_iff fun c hc ↦ (hchars c hc).1] at h
      obtain ⟨hlabel, htail⟩ := h
      cases rest with
      | nil => exact ⟨[label], List.cons_ne_nil _ _, by simpa using hlabel, .inl (by simp)⟩
      | cons c rest =>
        obtain rfl := hrest c rfl
        by_cases hnil : rest = []
        · subst hnil
          exact ⟨[label], List.cons_ne_nil _ _, by simpa using hlabel, .inr (by simp)⟩
        · obtain ⟨labels, hne, hlabels, heq⟩ := ih rest.length
            (by rw [← hn]; simp; omega) htail hnil rfl
          refine
            ⟨label :: labels, List.cons_ne_nil _ _, List.forall_mem_cons.2 ⟨hlabel, hlabels⟩, ?_⟩
          rw [List.intercalate_cons_of_ne_nil hne]
          rcases heq with rfl | rfl
          · exact .inl (by simp)
          · exact .inr (by simp)

/-- The domain names that are accepted. -/
theorem isDomainName_iff (s : List Char) : isDomainName s = true ↔ IsDomainName s := by
  rw [isDomainName, IsDomainName]
  split_ifs with hlen
  · simp only [false_iff]
    rintro ⟨hpos, hle, -⟩
    omega
  · have hs : s ≠ [] := by
      rintro rfl
      exact hlen (.inl rfl)
    constructor
    · exact fun h ↦ ⟨by omega, by omega, exists_labels h hs⟩
    · rintro ⟨-, -, labels, hne, hlabels, rfl | rfl⟩
      · simpa using checkLabels_intercalate hne hlabels (.inl rfl)
      · exact checkLabels_intercalate hne hlabels (.inr rfl)

/-! ### Dotted quads -/

/-- A decimal number up to 255 without leading zeros. -/
structure IsOctet (ds : List Char) : Prop where
  ne_nil : ds ≠ []
  isDigit : ∀ c ∈ ds, c.isDigit
  noLeadingZero : NoLeadingZero ds
  le : Nat.ofDigitChars 10 ds 0 ≤ 255

/-- Four octets with dots between them. -/
def IsIpv4 (s : List Char) : Prop :=
  ∃ octets : List (List Char), octets.length = 4 ∧ (∀ o ∈ octets, IsOctet o) ∧
    s = ['.'].intercalate octets

theorem isOctet_toDigits {n : ℕ} (h : n ≤ 255) : IsOctet (Nat.toDigits 10 n) where
  ne_nil := toDigits_ne_nil n
  isDigit := toDigits_digits n
  noLeadingZero := noLeadingZero_toDigits n
  le := by rwa [Nat.ofDigitChars_ten_toDigits]

/-- An octet is the numeral of its value. -/
theorem IsOctet.exists_formatLong {ds : List Char} (h : IsOctet ds) :
    ∃ n : ℕ, n ≤ 255 ∧ ds = formatLong n := by
  refine ⟨Nat.ofDigitChars 10 ds 0, h.le, ?_⟩
  rw [formatLong, if_neg (by omega), Int.natAbs_natCast,
    toDigits_ofDigitChars h.ne_nil h.isDigit h.noLeadingZero]

theorem isOctet_formatLong {n : ℤ} (hnonneg : 0 ≤ n) (hle : n ≤ 255) : IsOctet (formatLong n) := by
  rw [formatLong, if_neg (by omega)]
  exact isOctet_toDigits (by omega)

/-- The four numbers of a dotted quad are read. -/
theorem scanDotted_quad (a b c d : ℕ) :
    scanDotted 4 (['.'].intercalate ([a, b, c, d].map fun n : ℕ ↦ formatLong n)) =
      [a, b, c, d] := by
  have hdigits (n : ℕ) : ∃ ds : Digits, ds.chars = formatLong n ∧ ds.value = n := by
    refine ⟨⟨Nat.toDigits 10 n, toDigits_ne_nil n, toDigits_digits n⟩, ?_,
      Nat.ofDigitChars_ten_toDigits⟩
    rw [formatLong, if_neg (by omega), Int.natAbs_natCast]
  obtain ⟨da, ha, hva⟩ := hdigits a
  obtain ⟨db, hb, hvb⟩ := hdigits b
  obtain ⟨dc, hc, hvc⟩ := hdigits c
  obtain ⟨dd, hd, hvd⟩ := hdigits d
  have hend : EndsDotted [] := by simp [EndsDotted]
  have hscan := scanDotted_append [db, dc, dd] da 3 le_rfl hend
  simpa [ha, hb, hc, hd, hva, hvb, hvc, hvd] using hscan

/-- The IPv4 addresses that are accepted. -/
theorem isDottedQuad_iff (conv : IntConversion) (s : List Char) :
    isDottedQuad conv s = true ↔ IsIpv4 s := by
  constructor
  · intro h
    rw [isDottedQuad] at h
    split at h
    · next a b c d hscan =>
      simp only [List.map_cons, List.map_nil, List.all_cons, List.all_nil, Bool.and_eq_true,
        decide_eq_true_eq, Bool.and_true] at h
      obtain ⟨⟨ha, hb, hc, hd⟩, heq⟩ := h
      refine ⟨[conv.store a, conv.store b, conv.store c, conv.store d].map formatLong, rfl, ?_,
        heq.symm⟩
      simp only [List.map_cons, List.map_nil, List.forall_mem_cons]
      exact ⟨isOctet_formatLong ha.1 ha.2, isOctet_formatLong hb.1 hb.2,
        isOctet_formatLong hc.1 hc.2, isOctet_formatLong hd.1 hd.2, by simp⟩
    · cases h
  · rintro ⟨octets, hlen, hoctets, rfl⟩
    obtain ⟨oa, ob, oc, od, rfl⟩ := List.length_eq_four.1 hlen
    simp only [List.forall_mem_cons] at hoctets
    obtain ⟨ha, hb, hc, hd, -⟩ := hoctets
    obtain ⟨a, hale, rfl⟩ := ha.exists_formatLong
    obtain ⟨b, hble, rfl⟩ := hb.exists_formatLong
    obtain ⟨c, hcle, rfl⟩ := hc.exists_formatLong
    obtain ⟨d, hdle, rfl⟩ := hd.exists_formatLong
    have hscan := scanDotted_quad a b c d
    have hstore {n : ℕ} (hn : n ≤ 255) : conv.store n = n :=
      conv.store_of_mem n (by omega) (by omega)
    simp only [List.map_cons, List.map_nil] at hscan
    rw [isDottedQuad, hscan]
    simp [hstore hale, hstore hble, hstore hcle, hstore hdle, hale, hble, hcle, hdle]

/-! ### IPv6 addresses -/

/-- One to four hexadecimal digits. -/
def IsHexGroup (g : List Char) : Prop := 1 ≤ g.length ∧ g.length ≤ 4 ∧ ∀ c ∈ g, isHexDigit c

/-- The parts between colons stand for `n` groups of 16 bits; with a quad, the last part is an
IPv4 address. -/
def AreGroups (quad : Bool) (parts : List (List Char)) (n : ℕ) : Prop :=
  if quad then
    ∃ groups q, parts = groups ++ [q] ∧ (∀ g ∈ groups, IsHexGroup g) ∧ IsIpv4 q ∧
      n = groups.length + 2
  else (∀ g ∈ parts, IsHexGroup g) ∧ n = parts.length

/-- The forms of an IPv6 address: eight groups, or fewer around `::`, which stands for at least
one. -/
def IsIpv6Form (quad : Bool) (s : List Char) : Prop :=
  (∃ parts, AreGroups quad parts 8 ∧ s = [':'].intercalate parts) ∨
    ∃ left right n, (∀ g ∈ left, IsHexGroup g) ∧ AreGroups quad right n ∧ left.length + n ≤ 7 ∧
      s = [':'].intercalate left ++ ':' :: ':' :: [':'].intercalate right

/-- An IPv6 address, with or without an IPv4 address at its end. -/
def IsIpv6 (s : List Char) : Prop := ∃ quad, IsIpv6Form quad s

/-! ### What the forms are made of -/

/-- The characters of texts with a separator between them. -/
theorem mem_intercalate_iff {c x : Char} {ls : List (List Char)} :
    c ∈ [x].intercalate ls ↔ (c = x ∧ 2 ≤ ls.length) ∨ ∃ l ∈ ls, c ∈ l := by
  induction ls with
  | nil => simp
  | cons l ls ih =>
    cases ls with
    | nil => simp
    | cons l' ls =>
      have hcons : (∃ k ∈ l :: l' :: ls, c ∈ k) ↔ c ∈ l ∨ ∃ k ∈ l' :: ls, c ∈ k := by simp
      rw [List.intercalate_cons_cons, List.mem_append, List.mem_append, List.mem_singleton, ih,
        hcons]
      simp only [List.length_cons]
      constructor
      · rintro ((hl | hx) | (⟨hx, -⟩ | hls))
        · exact .inr (.inl hl)
        · exact .inl ⟨hx, by omega⟩
        · exact .inl ⟨hx, by omega⟩
        · exact .inr (.inr hls)
      · rintro (⟨hx, -⟩ | (hl | hls))
        · exact .inl (.inr hx)
        · exact .inl (.inl hl)
        · exact .inr (.inr hls)

variable {s : List Char}

theorem IsIpv4.colon_notMem (h : IsIpv4 s) : ':' ∉ s := by
  obtain ⟨octets, -, hoctets, rfl⟩ := h
  rw [mem_intercalate_iff]
  rintro (⟨hdot, -⟩ | ⟨o, ho, hmem⟩)
  · exact absurd hdot (by decide)
  · exact absurd ((hoctets o ho).isDigit _ hmem) (by decide)

theorem IsIpv4.dot_mem (h : IsIpv4 s) : '.' ∈ s := by
  obtain ⟨octets, hlen, -, rfl⟩ := h
  exact mem_intercalate_iff.2 (.inl ⟨rfl, by omega⟩)

/-- A character of a text with colons. -/
def IsHexOrColon (c : Char) : Prop := isHexDigit c ∨ c = ':'

theorem isHexOrColon_intercalate {parts : List (List Char)} (h : ∀ g ∈ parts, IsHexGroup g) :
    ∀ c ∈ [':'].intercalate parts, IsHexOrColon c := by
  intro c hc
  rcases mem_intercalate_iff.1 hc with ⟨hcolon, -⟩ | ⟨g, hg, hmem⟩
  · exact .inr hcolon
  · exact .inl ((h g hg).2.2 c hmem)

/-- An IPv6 address without an IPv4 address at its end. -/
theorem IsIpv6Form.of_hex (h : IsIpv6Form false s) : ':' ∈ s ∧ ∀ c ∈ s, IsHexOrColon c := by
  rcases h with ⟨parts, ⟨hparts, hlen⟩, rfl⟩ | ⟨left, right, n, hleft, ⟨hright, -⟩, -, rfl⟩
  · exact ⟨mem_intercalate_iff.2 (.inl ⟨rfl, by omega⟩), isHexOrColon_intercalate hparts⟩
  · refine ⟨by simp, fun c hc ↦ ?_⟩
    simp only [List.mem_append, List.mem_cons] at hc
    rcases hc with hc | rfl | rfl | hc
    · exact isHexOrColon_intercalate hleft c hc
    · exact .inr rfl
    · exact .inr rfl
    · exact isHexOrColon_intercalate hright c hc

/-- An IPv6 address with an IPv4 address at its end. -/
theorem IsIpv6Form.of_quad (h : IsIpv6Form true s) : ':' ∈ s ∧ '.' ∈ s := by
  have hdot {parts : List (List Char)} {n : ℕ} (hparts : AreGroups true parts n) :
      '.' ∈ [':'].intercalate parts := by
    obtain ⟨groups, q, rfl, -, hq, -⟩ := hparts
    exact mem_intercalate_iff.2 (.inr ⟨q, by simp, hq.dot_mem⟩)
  rcases h with ⟨parts, hparts, rfl⟩ | ⟨left, right, n, -, hright, -, rfl⟩
  · refine ⟨?_, hdot hparts⟩
    obtain ⟨groups, q, rfl, -, -, hlen⟩ := hparts
    exact mem_intercalate_iff.2 (.inl ⟨rfl, by simp; omega⟩)
  · exact ⟨by simp, by simp [hdot hright]⟩

/-- The texts that are accepted. -/
theorem isIpAddress_iff (conv : IntConversion) (s : List Char) :
    isIpAddress conv s = true ↔ IsIpv4 s ∨ (':' ∈ s ∧ ∀ c ∈ s, IsHexOrColon c) := by
  simp [isIpAddress, isDottedQuad_iff, IsHexOrColon]

/-- The validators are right about a text: `is_domain_name` tells whether it is a domain name, and
`is_ip_address` whether it is an IPv4 or IPv6 address. -/
def ValidatorsRight (conv : IntConversion) (s : List Char) : Prop :=
  (isDomainName s = true ↔ IsDomainName s) ∧ (isIpAddress conv s = true ↔ IsIpv4 s ∨ IsIpv6 s)

theorem isOctet_digit {d : Char} (hd : d.isDigit) (hne : d ≠ '0') : IsOctet [d] where
  ne_nil := List.cons_ne_nil d []
  isDigit := by simpa using hd
  noLeadingZero h := absurd (Option.some.inj h) hne
  le := by
    have hlt := (exists_digitChar hd).1
    simp only [Nat.ofDigitChars_cons, Nat.ofDigitChars_nil]
    omega

/-- A conversion that keeps the last 32 bits of a number. -/
def IntConversion.wrap : IntConversion where
  store n := n.bmod (2 ^ 32)
  store_of_mem n hle hlt := Int.bmod_eq_of_le (by omega) (by omega)

end PuppetC

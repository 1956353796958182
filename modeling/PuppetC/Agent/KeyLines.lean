import PuppetC.Agent.AuthorizedKeys
import PuppetC.Agent.HostEntries

/-!
# Lines of authorized keys

A line of an `authorized_keys` file has options, which may be missing, the type of a key, the key
and a comment. Options have no blanks but within quotes; there are none if the line starts with a
known type.

## Main definitions

* `readKeyLine`: what a line says.
* `unspaced`: options without the blanks between them.
* `EntryFits`: the entry of a resource can be read.

## Main results

* `EntryFits.readKeyLine_eq`: what the entry of a resource says.
* `entryFits_of_readKeyLine`: entries that say it fit.
-/

namespace PuppetC

/-! ### What lines say -/

/-- The fields of a line. -/
structure KeyLine where
  options : Bytes
  type : Bytes
  key : Bytes
  comment : Bytes
  deriving DecidableEq

/-- The types of keys. -/
def keyTypes : List Bytes :=
  ["ssh-rsa", "ssh-dss", "ssh-ed25519", "ecdsa-sha2-nistp256", "ecdsa-sha2-nistp384",
    "ecdsa-sha2-nistp521", "sk-ssh-ed25519@openssh.com",
    "sk-ecdsa-sha2-nistp256@openssh.com"].map String.toList

/-- What separates words does not belong to a word. -/
def isWordChar (c : Char) : Bool := !isHostBlank c

/-- Options, up to the first blank that is not within quotes, and what follows them. -/
def scanOptions : (quoted : Bool) → Bytes → Bytes × Bytes
  | _, [] => ([], [])
  | quoted, '\x5c' :: '\x22' :: t =>
    ('\x5c' :: '\x22' :: (scanOptions quoted t).1, (scanOptions quoted t).2)
  | quoted, c :: t =>
    if !quoted && isHostBlank c then ([], c :: t)
    else
      (c :: (scanOptions (if c = '\x22' then !quoted else quoted) t).1,
        (scanOptions (if c = '\x22' then !quoted else quoted) t).2)

/-- The fields of a line whose type stands at the front. -/
def readKeyFields (options t : Bytes) : Option KeyLine :=
  let rest := (t.dropWhile isWordChar).dropWhile isHostBlank
  let key := rest.takeWhile isWordChar
  if key = [] then none
  else
    some ⟨options, t.takeWhile isWordChar, key, (rest.dropWhile isWordChar).dropWhile isHostBlank⟩

/-- The fields of a line. -/
def readKeyLine (l : Bytes) : Option KeyLine :=
  let t := l.dropWhile isHostBlank
  if t = [] ∨ t.head? = some '#' then none
  else if t.takeWhile isWordChar ∈ keyTypes then readKeyFields [] t
  else
    let rest := (scanOptions false t).2.dropWhile isHostBlank
    if rest.takeWhile isWordChar ∈ keyTypes then readKeyFields (scanOptions false t).1 rest else none

/-- Options without the blanks between them. -/
def unspaced : (quoted : Bool) → Bytes → Bytes
  | _, [] => []
  | quoted, '\x5c' :: '\x22' :: t => '\x5c' :: '\x22' :: unspaced quoted t
  | quoted, c :: t =>
    if !quoted && isHostBlank c then unspaced quoted t
    else c :: unspaced (if c = '\x22' then !quoted else quoted) t

/-- Options have blanks within quotes only, and their quotes are closed. -/
def isClosed : (quoted : Bool) → Bytes → Bool
  | quoted, [] => !quoted
  | quoted, '\x5c' :: '\x22' :: t => isClosed quoted t
  | quoted, c :: t =>
    (quoted || isWordChar c) && isClosed (if c = '\x22' then !quoted else quoted) t

/-! ### Options -/

section Options

variable {quoted : Bool} {c : Char} {o f s t : Bytes}

/-- The cases of the functions on options. -/
theorem options_induct {P : Bool → Bytes → Prop} (nil : ∀ quoted, P quoted [])
    (escape : ∀ quoted t, P quoted t → P quoted ('\x5c' :: '\x22' :: t))
    (char : ∀ quoted c t, ¬ (c = '\x5c' ∧ t.head? = some '\x22') →
      (∀ quoted', P quoted' t) → P quoted (c :: t)) (quoted : Bool) (o : Bytes) : P quoted o := by
  induction hn : o.length using Nat.strongRecOn generalizing quoted o with
  | _ n ih =>
    cases o with
    | nil => exact nil quoted
    | cons c t =>
      by_cases hc : c = '\x5c' ∧ t.head? = some '\x22'
      · obtain ⟨rfl, ht⟩ := hc
        obtain ⟨t, rfl⟩ := List.head?_eq_some_iff.1 ht
        simp only [List.length_cons] at hn
        exact escape quoted t (ih t.length (by omega) quoted t rfl)
      · rw [List.length_cons] at hn
        exact char quoted c t hc fun quoted' ↦ ih t.length (by omega) quoted' t rfl

theorem scanOptions_char (hc : ¬ (c = '\x5c' ∧ t.head? = some '\x22')) (quoted : Bool) :
    scanOptions quoted (c :: t) =
      if !quoted && isHostBlank c then ([], c :: t)
      else
        (c :: (scanOptions (if c = '\x22' then !quoted else quoted) t).1,
          (scanOptions (if c = '\x22' then !quoted else quoted) t).2) := by
  rw [scanOptions]
  rintro t' rfl rfl
  exact hc ⟨rfl, rfl⟩

theorem unspaced_char (hc : ¬ (c = '\x5c' ∧ t.head? = some '\x22')) (quoted : Bool) :
    unspaced quoted (c :: t) =
      if !quoted && isHostBlank c then unspaced quoted t
      else c :: unspaced (if c = '\x22' then !quoted else quoted) t := by
  rw [unspaced]
  rintro t' rfl rfl
  exact hc ⟨rfl, rfl⟩

theorem isClosed_char (hc : ¬ (c = '\x5c' ∧ t.head? = some '\x22')) (quoted : Bool) :
    isClosed quoted (c :: t) =
      ((quoted || isWordChar c) && isClosed (if c = '\x22' then !quoted else quoted) t) := by
  rw [isClosed]
  rintro t' rfl rfl
  exact hc ⟨rfl, rfl⟩

/-- A character in front of more text, when it is not escaped. -/
theorem not_escape_append (hc : ¬ (c = '\x5c' ∧ t.head? = some '\x22'))
    (hs : s.head? ≠ some '\x22') : ¬ (c = '\x5c' ∧ (t ++ s).head? = some '\x22') := by
  rintro ⟨rfl, h⟩
  cases t with
  | nil => exact hs h
  | cons d t => exact hc ⟨rfl, h⟩

/-- Closed options are read up to the blank behind them. -/
theorem scanOptions_closed (hf : isClosed quoted f = true)
    (hs : ∀ c ∈ s.head?, isHostBlank c = true) : scanOptions quoted (f ++ s) = (f, s) := by
  have hquote : s.head? ≠ some '\x22' := fun h ↦ by cases hs _ h
  induction quoted, f using options_induct with
  | nil quoted =>
    obtain rfl : quoted = false := by simpa [isClosed] using hf
    cases s with
    | nil => rfl
    | cons c s =>
      have hblank := hs c rfl
      rw [List.nil_append, scanOptions_char, if_pos (by simp [hblank])]
      rintro ⟨rfl, -⟩
      cases hblank
  | escape quoted t ih =>
    rw [isClosed] at hf
    rw [List.cons_append, List.cons_append, scanOptions, ih hf]
  | char quoted c t hc ih =>
    rw [isClosed_char hc, Bool.and_eq_true] at hf
    obtain ⟨hword, hrest⟩ := hf
    rw [List.cons_append, scanOptions_char (not_escape_append hc hquote), ih _ hrest, if_neg]
    cases quoted <;> simp_all [isWordChar]

theorem unspaced_blanks (hs : ∀ c ∈ s, isHostBlank c = true) (o : Bytes) :
    unspaced false (s ++ o) = unspaced false o := by
  induction s with
  | nil => rfl
  | cons c s ih =>
    rw [List.forall_mem_cons] at hs
    rw [List.cons_append, unspaced_char, if_pos (by simp [hs.1]), ih hs.2]
    rintro ⟨rfl, -⟩
    cases hs.1

/-- Closed options have no blanks between them. -/
theorem unspaced_closed (hf : isClosed quoted f = true) (hs : ∀ c ∈ s, isHostBlank c = true) :
    unspaced quoted (f ++ s) = f := by
  have hquote : s.head? ≠ some '\x22' := fun h ↦ by cases hs _ (List.mem_of_mem_head? h)
  induction quoted, f using options_induct with
  | nil quoted =>
    obtain rfl : quoted = false := by simpa [isClosed] using hf
    have hblanks := unspaced_blanks hs []
    rwa [List.append_nil] at hblanks
  | escape quoted t ih =>
    rw [isClosed] at hf
    rw [List.cons_append, List.cons_append, unspaced, ih hf]
  | char quoted c t hc ih =>
    rw [isClosed_char hc, Bool.and_eq_true] at hf
    obtain ⟨hword, hrest⟩ := hf
    rw [List.cons_append, unspaced_char (not_escape_append hc hquote), ih _ hrest, if_neg]
    cases quoted <;> simp_all [isWordChar]

theorem or_isWordChar (h : ¬ (!quoted && isHostBlank c) = true) :
    (quoted || isWordChar c) = true := by
  cases quoted with
  | true => rfl
  | false => simpa [isWordChar] using h

/-- Only blanks are dropped. -/
theorem mem_unspaced (hc : c ∈ o) (hblank : isHostBlank c = false) : c ∈ unspaced quoted o := by
  induction quoted, o using options_induct with
  | nil quoted => cases hc
  | escape quoted t ih =>
    rw [unspaced]
    rcases List.mem_cons.1 hc with rfl | hc
    · exact List.mem_cons_self
    · rcases List.mem_cons.1 hc with rfl | hc
      · exact List.mem_cons_of_mem _ List.mem_cons_self
      · exact List.mem_cons_of_mem _ (List.mem_cons_of_mem _ (ih hc))
  | char quoted d t hd ih =>
    rw [unspaced_char hd]
    rcases List.mem_cons.1 hc with rfl | hc
    · rw [if_neg (by simp [hblank])]
      exact List.mem_cons_self
    · split_ifs
      · exact ih _ hc
      · exact List.mem_cons_of_mem _ (ih _ hc)
      · exact List.mem_cons_of_mem _ (ih _ hc)

theorem scanOptions_append (quoted : Bool) (o : Bytes) :
    (scanOptions quoted o).1 ++ (scanOptions quoted o).2 = o := by
  induction quoted, o using options_induct with
  | nil => rfl
  | escape quoted t ih => rw [scanOptions, List.cons_append, List.cons_append, ih]
  | char quoted c t hc ih =>
    rw [scanOptions_char hc]
    by_cases hblank : (!quoted && isHostBlank c) = true
    · rw [if_pos hblank, List.nil_append]
    · rw [if_neg hblank, List.cons_append, ih]

/-- Options that are read up to a blank without the blanks between them are closed, and only blanks
follow them. -/
theorem closed_of_scanOptions (h : (scanOptions quoted (o ++ ' ' :: s)).1 = unspaced quoted o) :
    ∃ right, o = (scanOptions quoted (o ++ ' ' :: s)).1 ++ right ∧
      (∀ c ∈ right, isHostBlank c = true) ∧
      isClosed quoted (scanOptions quoted (o ++ ' ' :: s)).1 = true := by
  have hquote : (' ' :: s).head? ≠ some '\x22' := fun h ↦ by cases h
  induction quoted, o using options_induct with
  | nil quoted =>
    have hspace : ¬ (' ' = '\x5c' ∧ s.head? = some '\x22') := fun h ↦ by cases h.1
    rw [List.nil_append, scanOptions_char hspace] at h ⊢
    cases quoted with
    | false => exact ⟨[], rfl, fun c hc ↦ (by cases hc), rfl⟩
    | true => cases h
  | escape quoted t ih =>
    rw [List.cons_append, List.cons_append, scanOptions, unspaced] at h
    rw [List.cons_append, List.cons_append, scanOptions, isClosed]
    obtain ⟨right, ht, hright, hclosed⟩ := ih (List.cons.inj (List.cons.inj h).2).2
    exact ⟨right, congrArg ('\x5c' :: '\x22' :: ·) ht, hright, hclosed⟩
  | char quoted c t hc ih =>
    rw [List.cons_append, scanOptions_char (not_escape_append hc hquote), unspaced_char hc] at h
    rw [List.cons_append, scanOptions_char (not_escape_append hc hquote)]
    by_cases hblank : (!quoted && isHostBlank c) = true
    · obtain ⟨hquoted, hblank'⟩ := Bool.and_eq_true_iff.1 hblank
      rw [if_pos hblank, if_pos hblank] at h
      rw [if_pos hblank]
      refine ⟨c :: t, rfl, List.forall_mem_cons.2 ⟨hblank', fun d hd ↦ ?_⟩, hquoted⟩
      by_contra hd'
      have hmem : d ∈ unspaced quoted t := mem_unspaced hd (Bool.not_eq_true _ ▸ hd')
      rw [← h] at hmem
      cases hmem
    · rw [if_neg hblank, if_neg hblank] at h
      rw [if_neg hblank]
      obtain ⟨right, ht, hright, hclosed⟩ := ih _ (List.cons.inj h).2
      refine ⟨right, congrArg (c :: ·) ht, hright, ?_⟩
      rw [isClosed_char, Bool.and_eq_true]
      · exact ⟨or_isWordChar hblank, hclosed⟩
      · rintro ⟨rfl, hhead⟩
        refine hc ⟨rfl, ?_⟩
        rw [ht, List.head?_append, hhead]
        rfl

end Options

/-! ### Entries -/

namespace AgentResource

variable (r : AgentResource)

/-- The entry of a resource without its newline. -/
def keyLine : Bytes :=
  (if r.keyOptions = [] then [] else r.keyOptions ++ [' ']) ++
    (r.text "type" ++ ' ' :: r.text "key" ++ ' ' :: r.title)

/-- What a resource asks for. -/
def wantedKey : KeyLine :=
  ⟨unspaced false r.keyOptions, r.text "type", r.text "key", r.title⟩

theorem keyEntry_eq : r.keyEntry = r.keyLine ++ ['\n'] := buildKeyEntry_eq ..

end AgentResource

/-- A field of options: it starts neither like a comment nor with the type of a key, its blanks are
within quotes, and its quotes are closed. -/
structure IsOptions (f : Bytes) : Prop where
  head : ∀ c ∈ f.head?, isHostBlank c = false ∧ c ≠ '#'
  type : f.takeWhile isWordChar ∉ keyTypes
  closed : isClosed false f = true
  newline : '\n' ∉ f

/-- The type is known, the key is a word, the title does not start with a blank, and the options are
a field of options, which may be empty, but for blanks around them. -/
structure EntryFits (r : AgentResource) : Prop where
  type : r.text "type" ∈ keyTypes
  key : r.text "key" ≠ [] ∧ ∀ c ∈ r.text "key", isWordChar c = true ∧ c ≠ '\n'
  title : '\n' ∉ r.title ∧ ∀ c ∈ r.title.head?, isHostBlank c = false
  options : ∃ left f right, r.keyOptions = left ++ f ++ right ∧
    (∀ c ∈ left ++ right, isHostBlank c = true) ∧ IsOptions f

section Entry

variable {r : AgentResource} {blanks f s t key title options : Bytes} {c : Char}

/-- The types of keys are words that do not look like comments. -/
theorem isWord_of_mem_keyTypes (ht : t ∈ keyTypes) :
    t ≠ [] ∧ (∀ c ∈ t, isWordChar c = true ∧ c ≠ '\n') ∧ t.head? ≠ some '#' := by
  have hall : keyTypes.all (fun t ↦ decide (t ≠ []) &&
      (t.all fun c ↦ isWordChar c && decide (c ≠ '\n')) && decide (t.head? ≠ some '#')) = true := by
    decide +kernel
  have hword := List.all_eq_true.1 hall t ht
  simpa [and_assoc] using hword

/-- The fields behind the options. -/
theorem readKeyFields_eq (ht : t ∈ keyTypes) (hne : key ≠ [])
    (hkey : ∀ c ∈ key, isWordChar c = true) (htitle : ∀ c ∈ title.head?, isHostBlank c = false)
    (options : Bytes) :
    readKeyFields options (t ++ ' ' :: key ++ ' ' :: title) =
      some ⟨options, t, key, title⟩ := by
  obtain ⟨-, hword, -⟩ := isWord_of_mem_keyTypes ht
  have hspace (u : Bytes) : ∀ c ∈ (' ' :: u).head?, isWordChar c = false := by
    rintro c hc
    cases hc
    rfl
  obtain ⟨htype, htype'⟩ := span_append (fun c hc ↦ (hword c hc).1) (hspace (key ++ ' ' :: title))
  obtain ⟨hkey₁, hkey₂⟩ := span_append hkey (hspace title)
  have hkeyhead : ∀ c ∈ (key ++ ' ' :: title).head?, isHostBlank c = false := by
    obtain ⟨d, ds, rfl⟩ := List.exists_cons_of_ne_nil hne
    intro c hc
    cases hc
    simpa [isWordChar] using hkey d List.mem_cons_self
  have hskip {u : Bytes} (hu : ∀ c ∈ u.head?, isHostBlank c = false) :
      (' ' :: u).dropWhile isHostBlank = u :=
    (span_append (w := [' ']) (fun c hc ↦ List.mem_singleton.1 hc ▸ rfl) hu).2
  rw [List.append_assoc, List.cons_append, readKeyFields, htype, htype', hskip hkeyhead, hkey₁,
    hkey₂, hskip htitle]
  exact if_neg hne

/-- Blanks in front of a line do not matter. -/
theorem readKeyLine_blanks (hblanks : ∀ c ∈ blanks, isHostBlank c = true) (l : Bytes) :
    readKeyLine (blanks ++ l) = readKeyLine l := by
  rw [readKeyLine, List.dropWhile_append_of_pos hblanks, ← readKeyLine]

/-- A line without options. -/
theorem readKeyLine_type (ht : t ∈ keyTypes) (s : Bytes) :
    readKeyLine (t ++ ' ' :: s) = readKeyFields [] (t ++ ' ' :: s) := by
  obtain ⟨hne, hword, hhash⟩ := isWord_of_mem_keyTypes ht
  have hspace : ∀ c ∈ (' ' :: s).head?, isWordChar c = false := fun c hc ↦ by cases hc; rfl
  have htake := (span_append (fun c hc ↦ (hword c hc).1) hspace).1
  obtain ⟨c, cs, rfl⟩ := List.exists_cons_of_ne_nil hne
  have hc : isHostBlank c = false := by simpa [isWordChar] using (hword c List.mem_cons_self).1
  have hstart : ¬ (c :: cs ++ ' ' :: s = [] ∨ (c :: cs ++ ' ' :: s).head? = some '#') := by
    rintro (h | h)
    · cases h
    · exact hhash h
  have hdrop : (c :: cs ++ ' ' :: s).dropWhile isHostBlank = c :: cs ++ ' ' :: s :=
    List.dropWhile_cons_of_neg (by simp [hc])
  rw [readKeyLine, hdrop, if_neg hstart, htake, if_pos ht]

/-- A line of a type, a key and a comment. -/
theorem readKeyLine_plain (ht : t ∈ keyTypes) (hne : key ≠ [])
    (hkey : ∀ c ∈ key, isWordChar c = true) (htitle : ∀ c ∈ title.head?, isHostBlank c = false) :
    readKeyLine (t ++ ' ' :: key ++ ' ' :: title) = some ⟨[], t, key, title⟩ := by
  have hfields := readKeyFields_eq ht hne hkey htitle []
  rw [List.append_assoc, List.cons_append] at hfields ⊢
  rw [readKeyLine_type ht, hfields]

/-- A word ends in front of a blank. -/
theorem takeWhile_append_blank (hs : ∀ c ∈ s.head?, isHostBlank c = true) :
    (f ++ s).takeWhile isWordChar = f.takeWhile isWordChar := by
  have hnil : s.takeWhile isWordChar = [] := by
    cases s with
    | nil => rfl
    | cons c s => exact List.takeWhile_cons_of_neg (by simp [isWordChar, hs c rfl])
  rw [List.takeWhile_append, hnil, List.append_nil]
  split_ifs with h
  · exact ((List.takeWhile_prefix isWordChar).eq_of_length h).symm
  · rfl

/-- A line with options. -/
theorem readKeyLine_options (hf : IsOptions f) (hne : f ≠ []) (hs : ∀ c ∈ s, isHostBlank c = true)
    (hsne : s ≠ []) (ht : t ∈ keyTypes) (u : Bytes) :
    readKeyLine (f ++ (s ++ (t ++ ' ' :: u))) = readKeyFields f (t ++ ' ' :: u) := by
  obtain ⟨htne, hword, -⟩ := isWord_of_mem_keyTypes ht
  have hspace : ∀ c ∈ (' ' :: u).head?, isWordChar c = false := fun c hc ↦ by cases hc; rfl
  have htake := (span_append (fun c hc ↦ (hword c hc).1) hspace).1
  obtain ⟨c, cs, rfl⟩ := List.exists_cons_of_ne_nil hne
  obtain ⟨d, ds, rfl⟩ := List.exists_cons_of_ne_nil hsne
  obtain ⟨hc, hhash⟩ := hf.head c rfl
  have hd := hs d List.mem_cons_self
  have hstart : ¬ (c :: cs ++ (d :: ds ++ (t ++ ' ' :: u)) = [] ∨
      (c :: cs ++ (d :: ds ++ (t ++ ' ' :: u))).head? = some '#') := by
    rintro (h | h)
    · cases h
    · exact hhash (Option.some.inj h)
  have hdrop : (c :: cs ++ (d :: ds ++ (t ++ ' ' :: u))).dropWhile isHostBlank =
      c :: cs ++ (d :: ds ++ (t ++ ' ' :: u)) := List.dropWhile_cons_of_neg (by simp [hc])
  have hfirst := takeWhile_append_blank (f := c :: cs) (s := d :: ds ++ (t ++ ' ' :: u))
    fun b hb ↦ by cases hb; exact hd
  have hscan : scanOptions false (c :: cs ++ (d :: ds ++ (t ++ ' ' :: u))) =
      (c :: cs, d :: ds ++ (t ++ ' ' :: u)) :=
    scanOptions_closed hf.closed fun b hb ↦ by cases hb; exact hd
  have hskip : (d :: ds ++ (t ++ ' ' :: u)).dropWhile isHostBlank = t ++ ' ' :: u := by
    refine (span_append hs fun b hb ↦ ?_).2
    obtain ⟨e, es, rfl⟩ := List.exists_cons_of_ne_nil htne
    obtain rfl := Option.some.inj hb
    simpa [isWordChar] using (hword e List.mem_cons_self).1
  rw [readKeyLine, hdrop, if_neg hstart, hfirst, if_neg hf.type, hscan]
  dsimp only
  rw [hskip, htake, if_pos ht]

/-- The line of a resource whose entry fits says what the resource asks for. -/
theorem EntryFits.readKeyLine_eq (h : EntryFits r) : readKeyLine r.keyLine = some r.wantedKey := by
  obtain ⟨left, f, right, ho, hblanks, hf⟩ := h.options
  rw [List.forall_mem_append] at hblanks
  have hfields := readKeyFields_eq h.type h.key.1 (fun c hc ↦ (h.key.2 c hc).1) h.title.2 f
  have hoptions : unspaced false r.keyOptions = f := by
    rw [ho, List.append_assoc, unspaced_blanks hblanks.1, unspaced_closed hf.closed hblanks.2]
  rw [List.append_assoc, List.cons_append] at hfields
  rw [AgentResource.keyLine, AgentResource.wantedKey, hoptions, ← hfields, List.append_assoc,
    List.cons_append]
  by_cases hnil : f = []
  · subst hnil
    have hall : ∀ c ∈ (if r.keyOptions = [] then [] else r.keyOptions ++ [' ']),
        isHostBlank c = true := by
      intro c hc
      split_ifs at hc
      · cases hc
      · rw [ho, List.append_nil, List.mem_append, List.mem_append, List.mem_singleton] at hc
        rcases hc with (hc | hc) | rfl
        exacts [hblanks.1 c hc, hblanks.2 c hc, rfl]
    rw [readKeyLine_blanks hall, readKeyLine_type h.type]
  · have hne : r.keyOptions ≠ [] := by
      rw [ho]
      simp [hnil]
    have hspaces : ∀ c ∈ right ++ [' '], isHostBlank c = true := by
      rw [List.forall_mem_append]
      exact ⟨hblanks.2, fun c hc ↦ List.mem_singleton.1 hc ▸ rfl⟩
    have hline := readKeyLine_options hf hnil hspaces (by simp) h.type
      (r.text "key" ++ ' ' :: r.title)
    have hleft := readKeyLine_blanks hblanks.1
      (f ++ (right ++ [' '] ++ (r.text "type" ++ ' ' :: (r.text "key" ++ ' ' :: r.title))))
    rw [if_neg hne, ← hline, ← hleft, ho]
    simp only [List.append_assoc]

/-- What is read of the fields behind the options. -/
theorem fields_of_readKeyFields {l : KeyLine} (h : readKeyFields options t = some l) :
    l.options = options ∧ l.type = t.takeWhile isWordChar ∧
      (l.key ≠ [] ∧ ∀ c ∈ l.key, isWordChar c = true ∧ c ∈ t) ∧
      (∀ c ∈ l.comment.head?, isHostBlank c = false) ∧ ∀ c ∈ l.comment, c ∈ t := by
  rw [readKeyFields] at h
  split_ifs at h with hkey
  cases h
  refine ⟨rfl, rfl, ⟨hkey, fun c hc ↦ ⟨List.mem_takeWhile_imp hc, ?_⟩⟩, fun c hc ↦ ?_,
    fun c hc ↦ ?_⟩
  · exact (List.dropWhile_sublist _).subset ((List.dropWhile_sublist _).subset
      ((List.takeWhile_sublist _).subset hc))
  · have hnot := List.head?_dropWhile_not isHostBlank
      (((t.dropWhile isWordChar).dropWhile isHostBlank).dropWhile isWordChar)
    rw [hc] at hnot
    exact hnot
  · exact (List.dropWhile_sublist _).subset ((List.dropWhile_sublist _).subset
      ((List.dropWhile_sublist _).subset ((List.dropWhile_sublist _).subset hc)))

/-- The fields of a line are words and texts without newlines. -/
theorem fields_of_readKeyLine {l : Bytes} {k : KeyLine} (hl : '\n' ∉ l)
    (h : readKeyLine l = some k) :
    k.type ∈ keyTypes ∧ (k.key ≠ [] ∧ ∀ c ∈ k.key, isWordChar c = true ∧ c ≠ '\n') ∧
      ('\n' ∉ k.comment ∧ ∀ c ∈ k.comment.head?, isHostBlank c = false) ∧ '\n' ∉ k.options := by
  have hfields {options t : Bytes} (ht : '\n' ∉ t) (htype : t.takeWhile isWordChar ∈ keyTypes)
      (hoptions : '\n' ∉ options) (h : readKeyFields options t = some k) :
      k.type ∈ keyTypes ∧ (k.key ≠ [] ∧ ∀ c ∈ k.key, isWordChar c = true ∧ c ≠ '\n') ∧
        ('\n' ∉ k.comment ∧ ∀ c ∈ k.comment.head?, isHostBlank c = false) ∧
          '\n' ∉ k.options := by
    obtain ⟨ho, hty, ⟨hne, hkey⟩, hhead, hcomment⟩ := fields_of_readKeyFields h
    refine ⟨hty ▸ htype, ⟨hne, fun c hc ↦ ⟨(hkey c hc).1, ?_⟩⟩, ⟨fun hc ↦ ht (hcomment _ hc), hhead⟩,
      ho ▸ hoptions⟩
    exact ne_of_mem_of_not_mem (hkey c hc).2 ht
  have ht : '\n' ∉ l.dropWhile isHostBlank := fun hc ↦ hl ((List.dropWhile_sublist _).subset hc)
  have hscan : '\n' ∉ (scanOptions false (l.dropWhile isHostBlank)).1 ∧
      '\n' ∉ (scanOptions false (l.dropWhile isHostBlank)).2 := by
    rw [← scanOptions_append false (l.dropWhile isHostBlank), List.mem_append, not_or] at ht
    exact ht
  rw [readKeyLine] at h
  split_ifs at h with hcomment htype
  · exact hfields ht htype List.not_mem_nil h
  · dsimp only at h
    split_ifs at h with htype
    exact hfields (fun hc ↦ hscan.2 ((List.dropWhile_sublist _).subset hc)) htype hscan.1 h

/-- An entry that says what the resource asks for fits. -/
theorem entryFits_of_readKeyLine (hl : '\n' ∉ r.keyLine)
    (h : readKeyLine r.keyLine = some r.wantedKey) : EntryFits r := by
  obtain ⟨htype, hkey, htitle, -⟩ := fields_of_readKeyLine hl h
  refine ⟨htype, hkey, htitle, ?_⟩
  have hnewline : '\n' ∉ r.keyOptions := by
    intro hc
    refine hl (List.mem_append_left _ ?_)
    rw [if_neg (List.ne_nil_of_mem hc)]
    exact List.mem_append_left _ hc
  have hnil : IsOptions [] := ⟨fun c hc ↦ (by cases hc), by decide +kernel, rfl, List.not_mem_nil⟩
  -- The options without the blanks in front of them.
  have hsplit := List.takeWhile_append_dropWhile (p := isHostBlank) (l := r.keyOptions)
  have hleft : ∀ c ∈ r.keyOptions.takeWhile isHostBlank, isHostBlank c = true :=
    fun c hc ↦ List.mem_takeWhile_imp hc
  cases ho : r.keyOptions.dropWhile isHostBlank with
  | nil =>
    rw [ho, List.append_nil] at hsplit
    exact ⟨r.keyOptions, [], [], by simp, by rw [List.append_nil, ← hsplit]; exact hleft, hnil⟩
  | cons c cs =>
    rw [ho] at hsplit
    have hc : isHostBlank c = false := by
      have hnot := List.head?_dropWhile_not isHostBlank r.keyOptions
      rw [ho] at hnot
      exact hnot
    have hne : r.keyOptions ≠ [] := by
      rw [← hsplit]
      simp
    have hwanted : unspaced false r.keyOptions = unspaced false (c :: cs) := by
      rw [← hsplit, unspaced_blanks hleft]
    have hmem : c ∈ unspaced false (c :: cs) := mem_unspaced List.mem_cons_self hc
    have hdrop : r.keyLine.dropWhile isHostBlank = c :: cs ++ ' ' :: (r.text "type" ++
        ' ' :: r.text "key" ++ ' ' :: r.title) := by
      rw [AgentResource.keyLine, if_neg hne, ← hsplit, List.append_assoc, List.append_assoc,
        List.append_assoc, List.dropWhile_append_of_pos hleft, List.cons_append,
        List.dropWhile_cons_of_neg (by simp [hc])]
      simp
    rw [readKeyLine, hdrop] at h
    generalize r.text "type" ++ ' ' :: r.text "key" ++ ' ' :: r.title = s at h hdrop
    split_ifs at h with hhash hfirst
    · have ho' : unspaced false r.keyOptions = [] := (fields_of_readKeyFields h).1
      rw [← hwanted, ho'] at hmem
      cases hmem
    · dsimp only at h
      split_ifs at h with htype'
      have ho' : unspaced false r.keyOptions = (scanOptions false (c :: cs ++ ' ' :: s)).1 :=
        (fields_of_readKeyFields h).1
      rw [hwanted] at ho'
      obtain ⟨right, hright, hblanks, hclosed⟩ := closed_of_scanOptions ho'.symm
      rw [← ho'] at hright hclosed
      generalize unspaced false (c :: cs) = f at hmem hright hclosed
      refine ⟨_, f, right, ?_, List.forall_mem_append.2 ⟨hleft, hblanks⟩, ?_, ?_, hclosed, ?_⟩
      · rw [List.append_assoc, ← hright, hsplit]
      · intro d hd
        have hd' : d = c := by
          obtain ⟨ds, rfl⟩ := List.head?_eq_some_iff.1 hd
          exact (List.cons.inj hright).1.symm
        subst hd'
        exact ⟨hc, fun heq ↦ hhash (Or.inr (congrArg some heq))⟩
      · have hs : ∀ d ∈ (right ++ ' ' :: s).head?, isHostBlank d = true := by
          cases right with
          | nil => exact fun d hd ↦ by cases hd; rfl
          | cons e es =>
            intro d hd
            cases hd
            exact hblanks _ List.mem_cons_self
        rwa [← takeWhile_append_blank hs, ← List.append_assoc, ← hright]
      · intro hmem'
        refine hnewline (hsplit ▸ List.mem_append_right _ ?_)
        rw [hright]
        exact List.mem_append_left _ hmem'

end Entry

end PuppetC

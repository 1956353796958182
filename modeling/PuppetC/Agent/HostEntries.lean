import Mathlib.Data.List.DropRight
import PuppetC.Agent.Hosts

/-!
# Names in the hosts file

A line of the hosts file says that an address has some names; a comment may follow. The call for a
resource should leave one line that names the title, with the address and the aliases that are
wanted, or none, and no other name should get or lose an address.

The agent looks for the title among all words of a line, those of a comment too, and puts its own
line in the place of the first line where it finds it. It writes the list of aliases with its
commas. So this is what happens if and only if at most one alias is listed, and the first line
where the title is looked at, if there is one, is the only one that names it and has no names but
the title and the alias; a line that is removed should not start with a blank, which would be left
in front of the next one. Longer files than the buffer holds are cut.

## Main definitions

* `readHostLine`, `addresses`: what lines say, and the addresses of a name.
* `HostKeeps`: what a call should do.
* `HostCareful`: the condition.

## Main results

* `hostKeeps_iff`: what a call should do, in terms of the lines that name the title.
* `host_apply_iff`: a call does what it should exactly if the condition holds.
-/

namespace PuppetC

/-! ### What lines say -/

/-- The words of a line before a comment. -/
def hostLineWords (l : Bytes) : List Bytes := wordsOf isHostBlank (l.takeWhile (· ≠ '#'))

/-- The address and the names on a line. -/
def readHostLine (l : Bytes) : Option (Bytes × List Bytes) :=
  match hostLineWords l with
  | [] => none
  | ip :: names => some (ip, names)

/-- The names on a line. -/
def lineNames (l : Bytes) : List Bytes := (hostLineWords l).tail

/-- The addresses of a name. -/
def addresses (ls : List Bytes) (name : Bytes) : List Bytes :=
  ls.filterMap fun l ↦ if name ∈ lineNames l then (hostLineWords l).head? else none

/-- A text without blanks at its ends. -/
def trimBlanks (t : Bytes) : Bytes := (t.dropWhile isHostBlank).rdropWhile isHostBlank

/-- The aliases of a list, with commas between them. -/
def listedAliases (t : Bytes) : List Bytes :=
  ((wordsOf (· = ',') t).map trimBlanks).filter fun a ↦ !a.isEmpty

/-- The address and the aliases that a resource asks for, unless it asks for none. -/
def AgentResource.wantedHost (r : AgentResource) : Option (Bytes × List Bytes) :=
  if r.WantsPresent then some (r.hostIp, listedAliases r.hostAliases) else none

/-- What should be kept from some lines to others: the title is named by one line, with what is
wanted, or by none; other names have the same addresses, and other lines are the same. -/
structure HostKeeps (r : AgentResource) (ls ls' : List Bytes) : Prop where
  named : (ls'.filter fun l ↦ r.title ∈ lineNames l).map readHostLine =
    r.wantedHost.toList.map fun w ↦ some (w.1, r.title :: w.2)
  others : ∀ name, name ≠ r.title → (∀ w ∈ r.wantedHost, name ∉ w.2) →
    addresses ls' name = addresses ls name
  lines : (ls'.filter fun l ↦ r.title ∉ lineNames l) = ls.filter fun l ↦ r.title ∉ lineNames l

section Keeps

variable {r : AgentResource} {ls ls' : List Bytes} {l name title : Bytes}

theorem readHostLine_of_mem (h : name ∈ lineNames l) :
    ∃ ip, (hostLineWords l).head? = some ip ∧ readHostLine l = some (ip, lineNames l) := by
  unfold lineNames at h ⊢
  unfold readHostLine
  cases hwords : hostLineWords l with
  | nil =>
    rw [hwords] at h
    cases h
  | cons ip names => exact ⟨ip, rfl, rfl⟩

theorem addresses_cons (l : Bytes) (ls : List Bytes) (name : Bytes) :
    addresses (l :: ls) name =
      (if name ∈ lineNames l then (hostLineWords l).head?.toList else []) ++
        addresses ls name := by
  unfold addresses
  by_cases hname : name ∈ lineNames l
  · obtain ⟨ip, hip, -⟩ := readHostLine_of_mem hname
    rw [List.filterMap_cons_some (b := ip) (by simpa [hname] using hip), if_pos hname, hip]
    rfl
  · rw [List.filterMap_cons_none (by simp [hname]), if_neg hname, List.nil_append]

/-- The lines that name a title matter for another name only if they name it too. -/
theorem addresses_filter_iff (title name : Bytes) (ls : List Bytes) :
    addresses (ls.filter fun l ↦ title ∉ lineNames l) name = addresses ls name ↔
      ∀ l ∈ ls, title ∈ lineNames l → name ∉ lineNames l := by
  induction ls with
  | nil => simp [addresses]
  | cons l ls ih =>
    rw [List.forall_mem_cons, addresses_cons]
    by_cases htitle : title ∈ lineNames l
    · rw [List.filter_cons_of_neg (by simpa using htitle)]
      by_cases hname : name ∈ lineNames l
      · obtain ⟨ip, hip, -⟩ := readHostLine_of_mem hname
        rw [if_pos hname, hip]
        refine iff_of_false (fun heq ↦ ?_) fun h ↦ h.1 htitle hname
        have hle : (addresses (ls.filter fun l ↦ title ∉ lineNames l) name).length ≤
            (addresses ls name).length := (List.filter_sublist.filterMap _).length_le
        rw [heq] at hle
        simp at hle
      · rw [if_neg hname, List.nil_append, ih]
        exact ⟨fun h ↦ ⟨fun _ ↦ hname, h⟩, fun h ↦ h.2⟩
    · rw [List.filter_cons_of_pos (by simpa using htitle), addresses_cons,
        List.append_cancel_left_eq, ih]
      exact ⟨fun h ↦ ⟨fun h' ↦ absurd h' htitle, h⟩, fun h ↦ h.2⟩

/-- Other names keep their addresses if they are not on the lines that name the title. -/
theorem hostKeeps_iff :
    HostKeeps r ls ls' ↔
      (ls'.filter fun l ↦ r.title ∈ lineNames l).map readHostLine =
          (r.wantedHost.toList.map fun w ↦ some (w.1, r.title :: w.2)) ∧
        ((ls'.filter fun l ↦ r.title ∉ lineNames l) =
          ls.filter fun l ↦ r.title ∉ lineNames l) ∧
        ∀ l ∈ ls, r.title ∈ lineNames l → ∀ n ∈ lineNames l,
          n = r.title ∨ ∃ w ∈ r.wantedHost, n ∈ w.2 := by
  have hkey (hnamed : (ls'.filter fun l ↦ r.title ∈ lineNames l).map readHostLine =
      r.wantedHost.toList.map fun w ↦ some (w.1, r.title :: w.2))
      (hlines : (ls'.filter fun l ↦ r.title ∉ lineNames l) =
        ls.filter fun l ↦ r.title ∉ lineNames l)
      (name : Bytes) (hne : name ≠ r.title) (hname : ∀ w ∈ r.wantedHost, name ∉ w.2) :
      addresses ls' name = addresses ls name ↔
        ∀ l ∈ ls, r.title ∈ lineNames l → name ∉ lineNames l := by
    have hnew : addresses (ls'.filter fun l ↦ r.title ∉ lineNames l) name =
        addresses ls' name := by
      refine (addresses_filter_iff _ _ _).2 fun l hl htitle hmem ↦ ?_
      have hread : readHostLine l ∈
          (ls'.filter fun l ↦ r.title ∈ lineNames l).map readHostLine :=
        List.mem_map_of_mem (List.mem_filter.2 ⟨hl, decide_eq_true htitle⟩)
      rw [hnamed] at hread
      obtain ⟨w, hw, hwl⟩ := List.mem_map.1 hread
      obtain ⟨ip, -, hip⟩ := readHostLine_of_mem htitle
      rw [hip] at hwl
      rw [← (Prod.mk.inj (Option.some.inj hwl)).2] at hmem
      rcases List.mem_cons.1 hmem with heq | hmem
      · exact hne heq
      · exact hname w (Option.mem_toList.1 hw) hmem
    rw [← hnew, hlines]
    exact addresses_filter_iff _ _ _
  constructor
  · rintro ⟨hnamed, hothers, hlines⟩
    refine ⟨hnamed, hlines, fun l hl htitle n hn ↦ ?_⟩
    by_contra hnot
    rw [not_or, not_exists] at hnot
    have hname : ∀ w ∈ r.wantedHost, n ∉ w.2 := fun w hw hmem ↦ hnot.2 w ⟨hw, hmem⟩
    exact (hkey hnamed hlines n hnot.1 hname).1 (hothers n hnot.1 hname) l hl htitle hn
  · rintro ⟨hnamed, hlines, hnames⟩
    refine ⟨hnamed, fun name hne hname ↦ (hkey hnamed hlines name hne hname).2 ?_, hlines⟩
    intro l hl htitle hmem
    rcases hnames l hl htitle name hmem with heq | ⟨w, hw, hmem⟩
    · exact hne heq
    · exact hname w hw hmem

end Keeps

/-! ### The search -/

section Search

variable {name l t before : Bytes} {pre post : List Bytes}

theorem dropWhile_isHostBlank_newline (l t : Bytes) :
    (l ++ '\n' :: t).dropWhile isHostBlank = l.dropWhile isHostBlank ++ '\n' :: t := by
  induction l with
  | nil => rw [List.nil_append, List.dropWhile_cons_of_neg (by decide)]; rfl
  | cons c l ih => by_cases hc : isHostBlank c <;> simp [hc, ih]

theorem takeWhile_isHostBlank_newline (l t : Bytes) :
    (l ++ '\n' :: t).takeWhile isHostBlank = l.takeWhile isHostBlank := by
  induction l with
  | nil => rw [List.nil_append, List.takeWhile_cons_of_neg (by decide)]; rfl
  | cons c l ih => by_cases hc : isHostBlank c <;> simp [hc, ih]

/-- The newline of a line is not looked at. -/
theorem comparedWords_newline (hl : '\n' ∉ l) : comparedWords (l ++ ['\n']) = comparedWords l := by
  unfold comparedWords
  rw [dropWhile_isHostBlank_newline]
  have hdrop : '\n' ∉ l.dropWhile isHostBlank := fun h ↦ hl ((List.dropWhile_sublist _).subset h)
  cases hl' : l.dropWhile isHostBlank with
  | nil => rfl
  | cons c t =>
    rw [hl'] at hdrop
    have htake : (c :: (t ++ ['\n'])).takeWhile (· ≠ '\n') = (c :: t).takeWhile (· ≠ '\n') := by
      have hall : ∀ d ∈ c :: t, decide (d ≠ '\n') = true := fun d hd ↦
        decide_eq_true (ne_of_mem_of_not_mem hd hdrop)
      rw [← List.cons_append, List.takeWhile_append_of_pos hall, List.takeWhile_eq_self_iff.2 hall]
      simp
    by_cases hhash : c = '#'
    · subst hhash
      rfl
    · by_cases hnewline : c = '\n'
      · subst hnewline
        rfl
      · simp only [List.cons_append, htake]

/-- Nothing is found where the name is looked at on no line. -/
theorem findHostLine_eq_none (h : ∀ l ∈ textLines t, name ∉ comparedWords l) :
    findHostLine name before (linePieces t) = none := by
  induction t using textLines_induct generalizing before with
  | nil => rfl
  | last l hl hne =>
    rw [textLines_last hl hne, List.forall_mem_singleton] at h
    rw [linePieces_last hl hne, findHostLine, if_neg (by simpa using h)]
    rfl
  | line l t hl ih =>
    rw [textLines_line hl, List.forall_mem_cons] at h
    rw [linePieces_line hl, findHostLine, comparedWords_newline hl, if_neg (by simpa using h.1)]
    exact ih h.2

/-- The first line on which the name is looked at is found. -/
theorem findHostEntry_eq_some (hlines : textLines t = pre ++ l :: post)
    (hpre : ∀ l' ∈ pre, name ∉ comparedWords l') (hname : name ∈ comparedWords l) :
    ∃ newline after, findHostEntry t name = some (unlines pre ++ l.takeWhile isHostBlank,
        l.dropWhile isHostBlank ++ newline, after) ∧
      t = unlines pre ++ (l ++ newline ++ after) ∧ textLines after = post := by
  obtain ⟨u, rfl, hu⟩ := exists_of_textLines_append hlines (List.cons_ne_nil l post)
  have hpassed (before : Bytes) (pre : List Bytes)
      (hpre : ∀ l' ∈ pre, '\n' ∉ l' ∧ name ∉ comparedWords l') :
      findHostLine name before (linePieces (unlines pre ++ u)) =
        findHostLine name (before ++ unlines pre) (linePieces u) := by
    induction pre generalizing before with
    | nil => simp
    | cons l' pre ih =>
      rw [List.forall_mem_cons] at hpre
      rw [unlines_cons, List.append_assoc, List.cons_append, linePieces_line hpre.1.1,
        findHostLine, comparedWords_newline hpre.1.1, if_neg (by simpa using hpre.1.2),
        ih _ hpre.2]
      simp
  have hl : '\n' ∉ l := newline_notMem_of_mem_textLines (hu ▸ List.mem_cons_self)
  have hnewlines : ∀ l' ∈ pre, '\n' ∉ l' ∧ name ∉ comparedWords l' := fun l' hl' ↦
    ⟨newline_notMem_of_mem_textLines (hlines ▸ List.mem_append_left _ hl'), hpre l' hl'⟩
  rw [findHostEntry, hpassed _ _ hnewlines, List.nil_append]
  rcases textLines_eq_cons hu with ⟨rfl, rfl⟩ | ⟨v, rfl, hv⟩
  · have hne : u ≠ [] := by
      rintro rfl
      cases hname
    refine ⟨[], [], ?_, by simp, rfl⟩
    rw [linePieces_last hl hne, findHostLine, if_pos (by simpa using hname), List.append_nil]
    rfl
  · refine ⟨['\n'], v, ?_, by simp, hv⟩
    rw [linePieces_line hl, findHostLine, comparedWords_newline hl, if_pos (by simpa using hname),
      dropWhile_isHostBlank_newline, takeWhile_isHostBlank_newline, flatten_linePieces]

end Search

/-! ### Words of an entry -/

/-- A word of a line before a comment. -/
def IsHostWord (w : Bytes) : Prop :=
  w ≠ [] ∧ ∀ c ∈ w, isHostBlank c = false ∧ c ≠ '#' ∧ c ≠ '\n'

section Words

variable {l w t blanks ip title : Bytes} {c : Char}

theorem isHostWord_of_mem (hl : '\n' ∉ l) (h : w ∈ hostLineWords l) : IsHostWord w := by
  obtain ⟨hne, hw⟩ := mem_of_mem_wordsOf h
  refine ⟨hne, fun c hc ↦ ⟨(hw c hc).1, ?_, ?_⟩⟩
  · simpa using List.mem_takeWhile_imp (hw c hc).2
  · exact ne_of_mem_of_not_mem ((List.takeWhile_sublist _).subset (hw c hc).2) hl

/-- Blanks at the ends are all that is trimmed. -/
theorem exists_trimBlanks (t : Bytes) : ∃ left right, t = left ++ trimBlanks t ++ right ∧
    (∀ c ∈ left, isHostBlank c = true) ∧ ∀ c ∈ right, isHostBlank c = true := by
  refine ⟨t.takeWhile isHostBlank, (t.dropWhile isHostBlank).rtakeWhile isHostBlank, ?_,
    fun c hc ↦ List.mem_takeWhile_imp hc, fun c hc ↦ List.mem_rtakeWhile_imp hc⟩
  rw [trimBlanks, List.append_assoc, List.rdropWhile_append_rtakeWhile,
    List.takeWhile_append_dropWhile]

theorem mem_trimBlanks (hc : c ∈ t) (hblank : isHostBlank c = false) : c ∈ trimBlanks t := by
  obtain ⟨left, right, ht, hleft, hright⟩ := exists_trimBlanks t
  rw [ht, List.mem_append, List.mem_append] at hc
  rcases hc with (hc | hc) | hc
  · rw [hleft c hc] at hblank
    cases hblank
  · exact hc
  · rw [hright c hc] at hblank
    cases hblank

theorem subset_trimBlanks (hc : c ∈ trimBlanks t) : c ∈ t := by
  obtain ⟨left, right, ht, -, -⟩ := exists_trimBlanks t
  rw [ht]
  exact List.mem_append_left _ (List.mem_append_right _ hc)

/-- What is neither a comma nor a blank is in an alias. -/
theorem exists_mem_listedAliases (hc : c ∈ t) (hcomma : c ≠ ',') (hblank : isHostBlank c = false) :
    ∃ a ∈ listedAliases t, c ∈ a := by
  obtain ⟨w, hw, hcw⟩ := exists_mem_wordsOf hc (p := fun c ↦ c = ',') (decide_eq_false hcomma)
  have htrim := mem_trimBlanks hcw hblank
  refine ⟨trimBlanks w, List.mem_filter.2 ⟨List.mem_map_of_mem hw, ?_⟩, htrim⟩
  simpa using List.ne_nil_of_mem htrim

theorem comma_notMem_of_mem_listedAliases (h : w ∈ listedAliases t) : ',' ∉ w := by
  intro hcomma
  obtain ⟨v, hv, rfl⟩ := List.mem_map.1 (List.mem_filter.1 h).1
  have hmem := ((mem_of_mem_wordsOf hv).2 ',' (subset_trimBlanks hcomma)).1
  simp at hmem

/-- A list of words is read as it is written if there is no comma. -/
theorem wordsOf_eq_listedAliases (hwords : ∀ a ∈ listedAliases t, IsHostWord a)
    (hcomma : ',' ∉ t) : wordsOf isHostBlank t = listedAliases t := by
  obtain ⟨left, right, ht, hleft, hright⟩ := exists_trimBlanks t
  have hlisted : listedAliases t = if trimBlanks t = [] then [] else [trimBlanks t] := by
    by_cases hne : t = []
    · subst hne
      simp [listedAliases, trimBlanks]
    · have hword : wordsOf (· = ',') t = [t] := wordsOf_word
        (fun c hc ↦ decide_eq_false (ne_of_mem_of_not_mem hc hcomma)) hne
      rw [listedAliases, hword]
      by_cases htrim : trimBlanks t = [] <;> simp [htrim]
  have hwordsOf : wordsOf isHostBlank t = wordsOf isHostBlank (trimBlanks t) := by
    conv_lhs => rw [ht]
    rw [wordsOf_append_seps hright, wordsOf_seps_append hleft]
  rw [hlisted] at hwords ⊢
  rw [hwordsOf]
  split_ifs at hwords ⊢ with htrim
  · rw [htrim, wordsOf_nil]
  · have hword := hwords _ (List.mem_singleton_self _)
    exact wordsOf_word (fun c hc ↦ (hword.2 c hc).1) htrim

theorem comma_notMem_of_wordsOf_eq (h : wordsOf isHostBlank t = listedAliases t) : ',' ∉ t := by
  intro hcomma
  obtain ⟨w, hw, hcw⟩ := exists_mem_wordsOf hcomma (p := isHostBlank) rfl
  exact comma_notMem_of_mem_listedAliases (h ▸ hw) hcw

theorem ne_of_mem_of_listedAliases (h : ∀ a ∈ listedAliases t, IsHostWord a) (hc : c ∈ t) :
    c ≠ '#' ∧ c ≠ '\n' := by
  by_cases hcomma : c = ','
  · subst hcomma
    decide
  · cases hblank : isHostBlank c with
    | true =>
      refine ⟨?_, ?_⟩ <;> rintro rfl <;> cases hblank
    | false =>
      obtain ⟨a, ha, hca⟩ := exists_mem_listedAliases hc hcomma hblank
      exact ((h a ha).2 c hca).2

/-- The words of the line that is written. -/
theorem hostLineWords_entry (hip : IsHostWord ip) (htitle : IsHostWord title)
    (ht : ∀ c ∈ t, c ≠ '#') (hblanks : ∀ c ∈ blanks, isHostBlank c = true) :
    hostLineWords (blanks ++ (ip ++ '\t' :: title ++ if t = [] then [] else ' ' :: t)) =
      ip :: title :: wordsOf isHostBlank t := by
  have hhash : ∀ c ∈ blanks ++ (ip ++ '\t' :: title ++ if t = [] then [] else ' ' :: t),
      decide (c ≠ '#') = true := by
    intro c hc
    refine decide_eq_true ?_
    rintro rfl
    rw [List.mem_append, List.mem_append, List.mem_append, List.mem_cons] at hc
    rcases hc with hc | (hc | hc | hc) | hc
    · cases hblanks _ hc
    · exact (hip.2 _ hc).2.1 rfl
    · cases hc
    · exact (htitle.2 _ hc).2.1 rfl
    · split_ifs at hc
      · cases hc
      · rcases List.mem_cons.1 hc with hc | hc
        · cases hc
        · exact ht _ hc rfl
  rw [hostLineWords, List.takeWhile_eq_self_iff.2 hhash, wordsOf_seps_append hblanks,
    List.append_assoc, List.cons_append,
    wordsOf_word_append (fun c hc ↦ (hip.2 c hc).1) hip.1 rfl]
  refine congrArg _ ?_
  split_ifs with hne
  · rw [List.append_nil, hne, wordsOf_nil, wordsOf_word (fun c hc ↦ (htitle.2 c hc).1) htitle.1]
  · rw [wordsOf_word_append (fun c hc ↦ (htitle.2 c hc).1) htitle.1 rfl]

end Words

/-! ### Lines that are replaced -/

section Lines

variable {r : AgentResource} {pre old post : List Bytes} {x : Bytes}

theorem filter_eq_nil_iff_forall {p : Bytes → Prop} [DecidablePred p] {ls : List Bytes} :
    ls.filter (fun l ↦ p l) = [] ↔ ∀ l ∈ ls, ¬ p l := by
  rw [List.filter_eq_nil_iff]
  exact forall₂_congr fun l _ ↦ not_congr decide_eq_true_iff

/-- Of a list with an entry in the middle one entry is left if there are no others. -/
theorem map_append_cons_eq_singleton_iff {α β : Type*} {f : α → β} {xs ys : List α} {x : α}
    {b : β} : (xs ++ x :: ys).map f = [b] ↔ xs = [] ∧ ys = [] ∧ f x = b := by
  constructor
  · intro h
    have hlength := congrArg List.length h
    rw [List.length_map, List.length_append, List.length_cons, List.length_singleton] at hlength
    have hxs : xs = [] := List.length_eq_zero_iff.1 (by omega)
    have hys : ys = [] := List.length_eq_zero_iff.1 (by omega)
    subst hxs hys
    exact ⟨rfl, rfl, (List.cons.inj h).1⟩
  · rintro ⟨rfl, rfl, rfl⟩
    rfl

/-- A line in the place of others. -/
theorem hostKeeps_present_iff (hwants : r.WantsPresent) {words : List Bytes}
    (hx : hostLineWords x = r.hostIp :: r.title :: words) :
    HostKeeps r (pre ++ old ++ post) (pre ++ x :: post) ↔
      words = listedAliases r.hostAliases ∧ (∀ l ∈ pre ++ post, r.title ∉ lineNames l) ∧
        ∀ l ∈ old, r.title ∈ lineNames l ∧
          ∀ n ∈ lineNames l, n = r.title ∨ ∃ w ∈ r.wantedHost, n ∈ w.2 := by
  have hnames : lineNames x = r.title :: words := by
    rw [lineNames, hx, List.tail_cons]
  have hread : readHostLine x = some (r.hostIp, r.title :: words) := by
    rw [readHostLine, hx]
  have htitle : r.title ∈ lineNames x := hnames ▸ List.mem_cons_self
  have hwanted : r.wantedHost = some (r.hostIp, listedAliases r.hostAliases) := if_pos hwants
  have hone : ((pre ++ x :: post).filter fun l ↦ r.title ∈ lineNames l).map readHostLine =
      (r.wantedHost.toList.map fun w ↦ some (w.1, r.title :: w.2)) ↔
        (∀ l ∈ pre, r.title ∉ lineNames l) ∧ (∀ l ∈ post, r.title ∉ lineNames l) ∧
          words = listedAliases r.hostAliases := by
    rw [List.filter_append, List.filter_cons_of_pos (by simpa using htitle), hwanted,
      Option.toList_some, List.map_singleton, map_append_cons_eq_singleton_iff,
      filter_eq_nil_iff_forall, filter_eq_nil_iff_forall, hread]
    simp
  have hlines : ((pre ++ x :: post).filter fun l ↦ r.title ∉ lineNames l) =
      ((pre ++ old ++ post).filter fun l ↦ r.title ∉ lineNames l) ↔
        ∀ l ∈ old, r.title ∈ lineNames l := by
    rw [List.filter_append, List.filter_cons_of_neg (by simpa using htitle), List.append_assoc,
      List.filter_append, List.filter_append, List.append_cancel_left_eq, List.self_eq_append_left,
      filter_eq_nil_iff_forall]
    exact forall₂_congr fun l _ ↦ not_not
  rw [hostKeeps_iff, hone, hlines, List.forall_mem_append (p := fun l ↦ r.title ∉ lineNames l)]
  constructor
  · rintro ⟨⟨hpre, hpost, hwords⟩, hold, hall⟩
    exact ⟨hwords, ⟨hpre, hpost⟩, fun l hl ↦ ⟨hold l hl,
      hall l (List.mem_append_left _ (List.mem_append_right _ hl)) (hold l hl)⟩⟩
  · rintro ⟨hwords, ⟨hpre, hpost⟩, hold⟩
    refine ⟨⟨hpre, hpost, hwords⟩, fun l hl ↦ (hold l hl).1, fun l hl hmem ↦ ?_⟩
    rcases List.mem_append.1 hl with hl | hl
    · rcases List.mem_append.1 hl with hl | hl
      · exact absurd hmem (hpre l hl)
      · exact (hold l hl).2
    · exact absurd hmem (hpost l hl)

/-- A line that is taken out. -/
theorem hostKeeps_absent_iff (pre old post : List Bytes) (hwants : ¬ r.WantsPresent) :
    HostKeeps r (pre ++ old ++ post) (pre ++ post) ↔
      (∀ l ∈ pre ++ post, r.title ∉ lineNames l) ∧
        ∀ l ∈ old, r.title ∈ lineNames l ∧
          ∀ n ∈ lineNames l, n = r.title ∨ ∃ w ∈ r.wantedHost, n ∈ w.2 := by
  have hwanted : r.wantedHost = none := if_neg hwants
  have hnone : ((pre ++ post).filter fun l ↦ r.title ∈ lineNames l).map readHostLine =
      (r.wantedHost.toList.map fun w ↦ some (w.1, r.title :: w.2)) ↔
        ∀ l ∈ pre ++ post, r.title ∉ lineNames l := by
    rw [hwanted, Option.toList_none, List.map_nil, List.map_eq_nil_iff, filter_eq_nil_iff_forall]
  have hlines : ((pre ++ post).filter fun l ↦ r.title ∉ lineNames l) =
      ((pre ++ old ++ post).filter fun l ↦ r.title ∉ lineNames l) ↔
        ∀ l ∈ old, r.title ∈ lineNames l := by
    rw [List.append_assoc, List.filter_append, List.filter_append, List.filter_append,
      List.append_cancel_left_eq, List.self_eq_append_left, filter_eq_nil_iff_forall]
    exact forall₂_congr fun l _ ↦ not_not
  rw [hostKeeps_iff, hnone, hlines]
  constructor
  · rintro ⟨hothers, hold, hall⟩
    exact ⟨hothers, fun l hl ↦ ⟨hold l hl,
      hall l (List.mem_append_left _ (List.mem_append_right _ hl)) (hold l hl)⟩⟩
  · rintro ⟨hothers, hold⟩
    refine ⟨hothers, fun l hl ↦ (hold l hl).1, fun l hl hmem ↦ ?_⟩
    rcases List.mem_append.1 hl with hl | hl
    · rcases List.mem_append.1 hl with hl | hl
      · exact absurd hmem (hothers l (List.mem_append_left _ hl))
      · exact (hold l hl).2
    · exact absurd hmem (hothers l (List.mem_append_right _ hl))

theorem lineNames_blanks {blanks : Bytes} (hblanks : ∀ c ∈ blanks, isHostBlank c = true)
    (l : Bytes) : lineNames (blanks ++ l) = lineNames l := by
  have hhash : ∀ c ∈ blanks, decide (c ≠ '#') = true := by
    intro c hc
    refine decide_eq_true ?_
    rintro rfl
    cases hblanks _ hc
  rw [lineNames, hostLineWords, List.takeWhile_append_of_pos hhash, wordsOf_seps_append hblanks]
  rfl

/-- Blanks that are left of a line are a line of their own, or change the next one. -/
theorem not_hostKeeps_of_blanks (hwants : ¬ r.WantsPresent) {blanks l after : Bytes}
    (hblanks : ∀ c ∈ blanks, isHostBlank c = true) (hne : blanks ≠ [])
    (hl : r.title ∈ comparedWords l) :
    ¬ HostKeeps r (pre ++ l :: textLines after) (pre ++ textLines (blanks ++ after)) := by
  have hnewline : '\n' ∉ blanks := fun h ↦ by cases hblanks _ h
  intro h
  have hunnamed : ∀ l' ∈ pre ++ textLines (blanks ++ after), r.title ∉ lineNames l' := by
    have hnamed := h.named
    rw [AgentResource.wantedHost, if_neg hwants, Option.toList_none, List.map_nil,
      List.map_eq_nil_iff, filter_eq_nil_iff_forall] at hnamed
    exact hnamed
  have hself {ls : List Bytes} (hls : ∀ l' ∈ ls, r.title ∉ lineNames l') :
      (ls.filter fun l' ↦ r.title ∉ lineNames l') = ls :=
    List.filter_eq_self.2 fun l' hl' ↦ decide_eq_true (hls l' hl')
  have hlines := h.lines
  rw [hself hunnamed, List.filter_append,
    hself fun l' hl' ↦ hunnamed l' (List.mem_append_left _ hl'), List.append_cancel_left_eq]
    at hlines
  have hnext (m : Bytes) (ls : List Bytes) (hafter : textLines after = m :: ls)
      (hjoined : textLines (blanks ++ after) = (blanks ++ m) :: ls) : False := by
    rw [hjoined] at hunnamed hlines
    have hm : r.title ∉ lineNames m := by
      rw [← lineNames_blanks hblanks]
      exact hunnamed _ (List.mem_append_right _ List.mem_cons_self)
    have hrest : ((m :: ls).filter fun l' ↦ r.title ∉ lineNames l') = m :: ls := by
      refine hself (List.forall_mem_cons.2 ⟨hm, fun l' hl' ↦ hunnamed l' ?_⟩)
      exact List.mem_append_right _ (List.mem_cons_of_mem _ hl')
    rw [hafter, List.filter_cons, hrest] at hlines
    split_ifs at hlines
    · have hlength := congrArg List.length hlines
      simp at hlength
    · exact hne (List.append_left_eq_self.1 (List.cons.inj hlines).1)
  obtain ⟨m, rest, hm, rfl, rfl | ⟨u, rfl⟩⟩ := exists_line after
  · have hjoined : '\n' ∉ blanks ++ m := by
      rw [List.mem_append, not_or]
      exact ⟨hnewline, hm⟩
    rw [List.append_nil] at hnext hlines
    by_cases hnil : m = []
    · subst hnil
      rw [List.append_nil] at hjoined hlines
      rw [textLines_last hjoined hne, textLines, List.filter_cons, List.filter_nil] at hlines
      have hl' : l = blanks := by
        split_ifs at hlines
        exact (List.cons.inj hlines).1.symm
      have hdrop : l.dropWhile isHostBlank = [] := by
        rw [hl', List.dropWhile_eq_nil_iff]
        exact hblanks
      rw [comparedWords, hdrop] at hl
      cases hl
    · refine hnext m [] (textLines_last hm hnil) (textLines_last hjoined ?_)
      exact List.append_ne_nil_of_left_ne_nil hne m
  · refine hnext m (textLines u) (textLines_line hm u) ?_
    rw [← List.append_assoc]
    refine textLines_line ?_ u
    rw [List.mem_append, not_or]
    exact ⟨hnewline, hm⟩

end Lines

/-! ### The entry that is written -/

section Entry

variable {r : AgentResource} {blanks : Bytes} {pre post : List Bytes}

/-- The entry of a resource without its newline. -/
def AgentResource.hostLine (r : AgentResource) : Bytes :=
  r.hostIp ++ '\t' :: r.title ++ if r.hostAliases = [] then [] else ' ' :: r.hostAliases

theorem hostEntry_eq (r : AgentResource) : r.hostEntry = r.hostLine ++ ['\n'] :=
  buildHostEntry_eq ..

/-- What is written is made of words for an address, a title and aliases. -/
structure EntryWords (r : AgentResource) : Prop where
  ip : IsHostWord r.hostIp
  title : IsHostWord r.title
  aliases : ∀ a ∈ listedAliases r.hostAliases, IsHostWord a

/-- Where the title is named as it is wanted, it is named by words. -/
theorem HostKeeps.entryWords {ls : List Bytes} {t : Bytes} (hwants : r.WantsPresent)
    (h : HostKeeps r ls (textLines t)) : EntryWords r := by
  have hnamed := h.named
  rw [AgentResource.wantedHost, if_pos hwants, Option.toList_some, List.map_singleton] at hnamed
  obtain ⟨x, hx, hread⟩ := List.mem_map.1 (hnamed ▸ List.mem_singleton_self _ : some (r.hostIp,
    r.title :: listedAliases r.hostAliases) ∈
      ((textLines t).filter fun l ↦ r.title ∈ lineNames l).map readHostLine)
  have hnewline := newline_notMem_of_mem_textLines (List.mem_filter.1 hx).1
  have hwords : hostLineWords x =
      r.hostIp :: r.title :: listedAliases r.hostAliases := by
    unfold readHostLine at hread
    cases hcases : hostLineWords x with
    | nil =>
      rw [hcases] at hread
      cases hread
    | cons ip names =>
      rw [hcases] at hread
      cases hread
      rfl
  have hword {w : Bytes} (hw : w ∈ hostLineWords x) : IsHostWord w := isHostWord_of_mem hnewline hw
  rw [hwords] at hword
  exact ⟨hword List.mem_cons_self, hword (List.mem_cons_of_mem _ List.mem_cons_self),
    fun a ha ↦ hword (List.mem_cons_of_mem _ (List.mem_cons_of_mem _ ha))⟩

theorem EntryWords.newline_notMem (h : EntryWords r) : '\n' ∉ r.hostLine := by
  intro hmem
  rw [AgentResource.hostLine, List.mem_append, List.mem_append, List.mem_cons] at hmem
  rcases hmem with (hmem | hmem | hmem) | hmem
  · exact (h.ip.2 _ hmem).2.2 rfl
  · cases hmem
  · exact (h.title.2 _ hmem).2.2 rfl
  · split_ifs at hmem
    · cases hmem
    · rcases List.mem_cons.1 hmem with hmem | hmem
      · cases hmem
      · exact (ne_of_mem_of_listedAliases h.aliases hmem).2 rfl

theorem EntryWords.hostLineWords_eq (h : EntryWords r)
    (hblanks : ∀ c ∈ blanks, isHostBlank c = true) :
    hostLineWords (blanks ++ r.hostLine) =
      r.hostIp :: r.title :: wordsOf isHostBlank r.hostAliases :=
  hostLineWords_entry h.ip h.title (fun _ hc ↦ (ne_of_mem_of_listedAliases h.aliases hc).1) hblanks

/-- The words of a list are its aliases if it has no commas. -/
theorem EntryWords.wordsOf_eq_iff (h : EntryWords r) :
    wordsOf isHostBlank r.hostAliases = listedAliases r.hostAliases ↔ ',' ∉ r.hostAliases :=
  ⟨comma_notMem_of_wordsOf_eq, wordsOf_eq_listedAliases h.aliases⟩

/-- The entry of the resource in the place of lines. -/
theorem hostKeeps_entry_iff (blanks : Bytes) (pre old post : List Bytes)
    (hwants : r.WantsPresent) {ls : List Bytes} {text : Bytes}
    (hblanks : ∀ c ∈ blanks, isHostBlank c = true) (hls : ls = pre ++ old ++ post)
    (htext : textLines text = pre ++ textLines (blanks ++ r.hostEntry) ++ post) :
    HostKeeps r ls (textLines text) ↔
      (EntryWords r ∧ ',' ∉ r.hostAliases) ∧ (∀ l ∈ pre ++ post, r.title ∉ lineNames l) ∧
        ∀ l ∈ old, r.title ∈ lineNames l ∧
          ∀ n ∈ lineNames l, n = r.title ∨ ∃ w ∈ r.wantedHost, n ∈ w.2 := by
  have hkeeps (h : EntryWords r) : HostKeeps r ls (textLines text) ↔
      ',' ∉ r.hostAliases ∧ (∀ l ∈ pre ++ post, r.title ∉ lineNames l) ∧
        ∀ l ∈ old, r.title ∈ lineNames l ∧
          ∀ n ∈ lineNames l, n = r.title ∨ ∃ w ∈ r.wantedHost, n ∈ w.2 := by
    have hnewline : '\n' ∉ blanks ++ r.hostLine := by
      rw [List.mem_append, not_or]
      exact ⟨fun hmem ↦ (by cases hblanks _ hmem), h.newline_notMem⟩
    have hline : textLines (blanks ++ r.hostEntry) = [blanks ++ r.hostLine] := by
      rw [hostEntry_eq, ← List.append_assoc, textLines_line hnewline]
      rfl
    rw [hls, htext, hline, ← List.append_cons,
      hostKeeps_present_iff hwants (h.hostLineWords_eq hblanks), h.wordsOf_eq_iff]
  constructor
  · intro h
    have hwords := h.entryWords hwants
    obtain ⟨hcomma, hrest⟩ := (hkeeps hwords).1 h
    exact ⟨⟨hwords, hcomma⟩, hrest⟩
  · rintro ⟨⟨hwords, hcomma⟩, hrest⟩
    exact (hkeeps hwords).2 ⟨hcomma, hrest⟩

end Entry

/-! ### Calls -/

/-- The title is named by no line and looked at on none, or the first line on which it is looked at
is the only one that names it, and has no names but the title and those that are wanted; if it is
removed, it does not start with a blank. What is written has words for an address, a title and at
most one alias. -/
structure HostCareful (r : AgentResource) (ls : List Bytes) : Prop where
  entry : r.WantsPresent → EntryWords r ∧ ',' ∉ r.hostAliases
  line : (∀ l ∈ ls, r.title ∉ comparedWords l ∧ r.title ∉ lineNames l) ∨
    ∃ pre l post, ls = pre ++ l :: post ∧ r.title ∈ comparedWords l ∧ r.title ∈ lineNames l ∧
      (∀ l' ∈ pre, r.title ∉ comparedWords l' ∧ r.title ∉ lineNames l') ∧
      (∀ l' ∈ post, r.title ∉ lineNames l') ∧
      (∀ n ∈ lineNames l, n = r.title ∨ ∃ w ∈ r.wantedHost, n ∈ w.2) ∧
      (¬ r.WantsPresent → l.takeWhile isHostBlank = [])

section Calls

variable {writeError : Bytes → Option String} {r : AgentResource} {noop : Bool} {stored : Bytes}
  {ls pre post : List Bytes} {l : Bytes}

/-- The condition where the title is looked at on no line. -/
theorem hostCareful_iff_of_forall (hnone : ∀ l ∈ ls, r.title ∉ comparedWords l) :
    HostCareful r ls ↔
      (r.WantsPresent → EntryWords r ∧ ',' ∉ r.hostAliases) ∧ ∀ l ∈ ls, r.title ∉ lineNames l := by
  constructor
  · rintro ⟨hentry, hline | ⟨pre, l, post, rfl, hl, -⟩⟩
    · exact ⟨hentry, fun l hl ↦ (hline l hl).2⟩
    · exact absurd hl (hnone l (by simp))
  · rintro ⟨hentry, hline⟩
    exact ⟨hentry, Or.inl fun l hl ↦ ⟨hnone l hl, hline l hl⟩⟩

/-- The first line on which the title is looked at is one line. -/
theorem first_line_unique {pre' post' : List Bytes} {l' : Bytes} {p : Bytes → Prop}
    (heq : pre ++ l :: post = pre' ++ l' :: post') (hpre : ∀ x ∈ pre, ¬ p x) (hl : p l)
    (hpre' : ∀ x ∈ pre', ¬ p x) (hl' : p l') : pre = pre' ∧ l = l' ∧ post = post' := by
  induction pre generalizing pre' with
  | nil =>
    cases pre' with
    | nil => exact ⟨rfl, List.cons.inj heq⟩
    | cons x pre' =>
      exact absurd ((List.cons.inj heq).1 ▸ hl) (hpre' x List.mem_cons_self)
  | cons x pre ih =>
    cases pre' with
    | nil =>
      exact absurd ((List.cons.inj heq).1 ▸ hl') (hpre x List.mem_cons_self)
    | cons y pre' =>
      obtain ⟨rfl, htail⟩ := List.cons.inj heq
      obtain ⟨rfl, hrest⟩ := ih htail (fun z hz ↦ hpre z (List.mem_cons_of_mem _ hz))
        fun z hz ↦ hpre' z (List.mem_cons_of_mem _ hz)
      exact ⟨rfl, hrest⟩

/-- The condition where the title is looked at. -/
theorem hostCareful_iff_of_mem (hpre : ∀ l' ∈ pre, r.title ∉ comparedWords l')
    (hl : r.title ∈ comparedWords l) :
    HostCareful r (pre ++ l :: post) ↔
      (r.WantsPresent → EntryWords r ∧ ',' ∉ r.hostAliases) ∧
        (∀ l' ∈ pre ++ post, r.title ∉ lineNames l') ∧
        (r.title ∈ lineNames l ∧
          ∀ n ∈ lineNames l, n = r.title ∨ ∃ w ∈ r.wantedHost, n ∈ w.2) ∧
        (¬ r.WantsPresent → l.takeWhile isHostBlank = []) := by
  constructor
  · rintro ⟨hentry, hline | ⟨pre', l', post', heq, hl', hnamed, hpre', hpost', hnames, hblank⟩⟩
    · exact absurd hl (hline l (by simp)).1
    · obtain ⟨rfl, rfl, rfl⟩ := first_line_unique (p := fun x ↦ r.title ∈ comparedWords x) heq hpre
        hl (fun x hx ↦ (hpre' x hx).1) hl'
      refine ⟨hentry, fun x hx ↦ ?_, ⟨hnamed, hnames⟩, hblank⟩
      rcases List.mem_append.1 hx with hx | hx
      exacts [(hpre' x hx).2, hpost' x hx]
  · rintro ⟨hentry, hothers, ⟨hnamed, hnames⟩, hblank⟩
    exact ⟨hentry, Or.inr ⟨pre, l, post, rfl, hl, hnamed,
      fun x hx ↦ ⟨hpre x hx, hothers x (List.mem_append_left _ hx)⟩,
      fun x hx ↦ hothers x (List.mem_append_right _ hx), hnames, hblank⟩⟩

/-- Some line is the first of its kind, or there is none. -/
theorem exists_first_line (p : Bytes → Prop) [DecidablePred p] (ls : List Bytes) :
    (∀ l ∈ ls, ¬ p l) ∨ ∃ pre l post, ls = pre ++ l :: post ∧ (∀ x ∈ pre, ¬ p x) ∧ p l := by
  induction ls with
  | nil => exact Or.inl fun _ h ↦ absurd h List.not_mem_nil
  | cons x ls ih =>
    by_cases hx : p x
    · exact Or.inr ⟨[], x, ls, rfl, fun _ h ↦ absurd h List.not_mem_nil, hx⟩
    · rcases ih with hnone | ⟨pre, l, post, rfl, hpre, hl⟩
      · exact Or.inl (List.forall_mem_cons.2 ⟨hx, hnone⟩)
      · exact Or.inr ⟨x :: pre, l, post, rfl, List.forall_mem_cons.2 ⟨hx, hpre⟩, hl⟩

/-- A call for a resource that is wanted. -/
theorem hostKeeps_apply_present (hread : readText stored = stored) (hwants : r.WantsPresent)
    (h : (hostApply writeError r noop stored).Successful) :
    HostKeeps r (textLines stored) (textLines (hostApply writeError r noop stored).text) ↔
      HostCareful r (textLines stored) := by
  rw [hostApply_present hwants h, hread]
  rcases exists_first_line (fun l ↦ r.title ∈ comparedWords l) (textLines stored) with
    hnone | ⟨pre, l, post, hlines, hpre, hl⟩
  · rw [findHostEntry, findHostLine_eq_none hnone, hostCareful_iff_of_forall hnone]
    dsimp only
    rw [hostKeeps_entry_iff [] (textLines stored) [] [] hwants (by simp) (by simp)
      (by rw [textLines_withNewline_append]; simp), List.append_nil]
    simp [hwants]
  · obtain ⟨newline, after, hfind, htext, hafter⟩ := findHostEntry_eq_some hlines hpre hl
    have hsame : (if l.dropWhile isHostBlank ++ newline = r.hostEntry then stored
        else unlines pre ++ l.takeWhile isHostBlank ++ r.hostEntry ++ after) =
          unlines pre ++ (l.takeWhile isHostBlank ++ r.hostEntry ++ after) := by
      split_ifs with hentry
      · rw [← hentry, htext]
        conv_lhs => rw [← List.takeWhile_append_dropWhile (p := isHostBlank) (l := l)]
        simp only [List.append_assoc]
      · simp only [List.append_assoc]
    have hnewlines : ∀ l' ∈ pre, '\n' ∉ l' := fun l' hl' ↦
      newline_notMem_of_mem_textLines (hlines ▸ List.mem_append_left _ hl')
    have hend : (l.takeWhile isHostBlank ++ r.hostEntry).getLast? = some '\n' := by
      rw [hostEntry_eq, ← List.append_assoc, List.getLast?_append_of_ne_nil _ (by simp)]
      rfl
    rw [hfind]
    dsimp only
    rw [hsame, hlines, hostCareful_iff_of_mem hpre hl,
      hostKeeps_entry_iff (l.takeWhile isHostBlank) pre [l] post hwants
        (fun c hc ↦ List.mem_takeWhile_imp hc) (by simp)
        (by rw [textLines_unlines_append hnewlines, textLines_append_of_getLast? hend, hafter,
          List.append_assoc])]
    simp [hwants]

/-- A call for a resource that is not wanted. -/
theorem hostKeeps_apply_absent (hread : readText stored = stored) (hwants : ¬ r.WantsPresent)
    (h : (hostApply writeError r noop stored).Successful) :
    HostKeeps r (textLines stored) (textLines (hostApply writeError r noop stored).text) ↔
      HostCareful r (textLines stored) := by
  rw [hostApply_absent hwants h, hread]
  rcases exists_first_line (fun l ↦ r.title ∈ comparedWords l) (textLines stored) with
    hnone | ⟨pre, l, post, hlines, hpre, hl⟩
  · rw [findHostEntry, findHostLine_eq_none hnone, hostCareful_iff_of_forall hnone]
    have hsame := hostKeeps_absent_iff (textLines stored) [] [] hwants
    simpa [hwants] using hsame
  · obtain ⟨newline, after, hfind, htext, hafter⟩ := findHostEntry_eq_some hlines hpre hl
    have hnewlines : ∀ l' ∈ pre, '\n' ∉ l' := fun l' hl' ↦
      newline_notMem_of_mem_textLines (hlines ▸ List.mem_append_left _ hl')
    rw [hfind]
    dsimp only
    rw [List.append_assoc, textLines_unlines_append hnewlines, hlines,
      hostCareful_iff_of_mem hpre hl]
    by_cases hblanks : l.takeWhile isHostBlank = []
    · have hcut := hostKeeps_absent_iff pre [l] post hwants
      rw [hblanks, List.nil_append, hafter]
      simpa [hwants] using hcut
    · refine iff_of_false ?_ fun hcareful ↦ hblanks (hcareful.2.2.2 hwants)
      rw [← hafter]
      exact not_hostKeeps_of_blanks hwants (fun c hc ↦ List.mem_takeWhile_imp hc) hblanks hl

end Calls

/-! ### The size of a text -/

/-- A host with an address. -/
def host (ensure ip title aliases : String) : AgentResource :=
  ⟨"host".toList, title.toList, [("ensure".toList, ensure.toList), ("ip".toList, ip.toList),
    ("host_aliases".toList, aliases.toList)]⟩

/-- A text of one comment. -/
def hugeComment (n : ℕ) : Bytes := '#' :: List.replicate n 'x'

theorem mem_hugeComment {n : ℕ} {c : Char} (h : c ∈ hugeComment n) : c = '#' ∨ c = 'x' :=
  (List.mem_cons.1 h).imp_right List.eq_of_mem_replicate

theorem textLines_hugeComment (n : ℕ) : textLines (hugeComment n) = [hugeComment n] := by
  refine textLines_last (fun h ↦ ?_) (List.cons_ne_nil _ _)
  rcases mem_hugeComment h with h | h <;> cases h

/-- A comment that does not fit the buffer is cut. -/
theorem readText_hugeComment {n : ℕ} (hn : 64 * 1024 ≤ n + 1) :
    readText (hugeComment n) = hugeComment (64 * 1024 - 2) := by
  have htake : (hugeComment n).take (64 * 1024 - 1) = hugeComment (64 * 1024 - 2) := by
    have hsucc : 64 * 1024 - 1 = (64 * 1024 - 2) + 1 := by omega
    rw [hugeComment, hugeComment, hsucc, List.take_succ_cons, List.take_replicate,
      Nat.min_eq_left (by omega)]
  rw [readText, htake, List.takeWhile_eq_self_iff]
  intro c hc
  rcases mem_hugeComment hc with rfl | rfl <;> decide

/-- Long texts are cut by a call that meets the rest of the condition. -/
theorem not_hostKeeps_hugeComment {n : ℕ} (hn : 64 * 1024 ≤ n + 1) :
    let r := host "present" "1.1.1.1" "a" ""
    (hostApply (fun _ ↦ none) r false (hugeComment n)).Successful ∧
      HostCareful r (textLines (hugeComment n)) ∧
      ¬ HostKeeps r (textLines (hugeComment n))
        (textLines (hostApply (fun _ ↦ none) r false (hugeComment n)).text) := by
  intro r
  have hnone (k : ℕ) : ∀ l ∈ textLines (hugeComment k),
      r.title ∉ comparedWords l ∧ r.title ∉ lineNames l := by
    rw [textLines_hugeComment, List.forall_mem_singleton]
    exact ⟨List.not_mem_nil, by simp [lineNames, hostLineWords, hugeComment]⟩
  have hfind : findHostEntry (readText (hugeComment n)) r.title = none := by
    rw [readText_hugeComment hn]
    exact findHostLine_eq_none fun l hl ↦ (hnone _ l hl).1
  have hsuccessful : (hostApply (fun _ ↦ none) r false (hugeComment n)).Successful := by
    unfold hostApply
    rw [if_neg (by decide)]
    dsimp only
    rw [if_neg (by decide), hfind]
    exact Or.inr rfl
  refine ⟨hsuccessful, ⟨fun _ ↦ ⟨⟨?_, ?_, ?_⟩, by decide⟩, Or.inl (hnone n)⟩, fun h ↦ ?_⟩
  · have hip : r.hostIp = "1.1.1.1".toList := by decide
    rw [hip]
    exact ⟨by decide, by simp [isHostBlank]⟩
  · exact ⟨by decide, by simp [r, host, isHostBlank]⟩
  · have halias : listedAliases r.hostAliases = [] := by decide
    rw [halias]
    simp
  · rw [hostApply_present (by decide) hsuccessful, hfind] at h
    have hentry : textLines r.hostEntry = ["1.1.1.1\ta".toList] := by decide
    have hself (k : ℕ) : [hugeComment k].filter (fun l ↦ r.title ∉ lineNames l) =
        [hugeComment k] := by
      refine List.filter_eq_self.2 fun l hl ↦ decide_eq_true ?_
      exact (hnone k l (textLines_hugeComment k ▸ hl)).2
    have hnew : ["1.1.1.1\ta".toList].filter (fun l ↦ r.title ∉ lineNames l) = [] := by
      decide +kernel
    have hlines := h.lines
    rw [textLines_withNewline_append, readText_hugeComment hn, hentry, textLines_hugeComment,
      textLines_hugeComment, List.filter_append, hnew, List.append_nil, hself, hself] at hlines
    have hlength := congrArg List.length (List.cons.inj hlines).1
    rw [hugeComment, hugeComment, List.length_cons, List.length_cons, List.length_replicate,
      List.length_replicate] at hlength
    omega

/-- The condition is that for texts of a length if and only if they fit the buffer. -/
theorem host_apply_iff (n : ℕ) :
    (∀ stored : Bytes, stored.length = n → '\x00' ∉ stored →
      ∀ (writeError : Bytes → Option String) (r : AgentResource) (noop : Bool),
        (hostApply writeError r noop stored).Successful →
          (HostKeeps r (textLines stored) (textLines (hostApply writeError r noop stored).text) ↔
            HostCareful r (textLines stored))) ↔
      n < 64 * 1024 := by
  constructor
  · intro h
    by_contra hn
    obtain ⟨n, rfl⟩ := Nat.exists_eq_succ_of_ne_zero (n := n) (by omega)
    have hlong : 64 * 1024 ≤ n + 1 := by omega
    obtain ⟨hsuccessful, hcareful, hkeeps⟩ := not_hostKeeps_hugeComment hlong
    refine hkeeps ((h (hugeComment n) ?_ (fun hmem ↦ ?_) _ _ _ hsuccessful).2 hcareful)
    · rw [hugeComment, List.length_cons, List.length_replicate]
    · rcases mem_hugeComment hmem with hc | hc <;> cases hc
  · intro hn stored hlength hnul writeError r noop hsuccessful
    have hread : readText stored = stored := readText_eq (by omega) hnul
    by_cases hwants : r.WantsPresent
    · exact hostKeeps_apply_present hread hwants hsuccessful
    · exact hostKeeps_apply_absent hread hwants hsuccessful

/-- Another name on the line of a host loses its address. -/
theorem not_hostKeeps_other_name :
    let r := host "present" "5.6.7.8" "foo" ""
    let stored := "1.2.3.4\tfoo bar\n".toList
    hostApply (fun _ ↦ none) r false stored = ⟨.changed, none, "5.6.7.8\tfoo\n".toList⟩ ∧
      ¬ HostKeeps r (textLines stored) (textLines "5.6.7.8\tfoo\n".toList) := by
  refine ⟨by decide +kernel, fun h ↦ ?_⟩
  have hother := h.others "bar".toList (by decide) fun w hw ↦ ?_
  · revert hother
    decide +kernel
  · have hwanted : w = ("5.6.7.8".toList, []) := by
      have hsome : (host "present" "5.6.7.8" "foo" "").wantedHost =
          some ("5.6.7.8".toList, []) := by
        decide +kernel
      rw [hsome] at hw
      exact (Option.some.inj hw).symm
    rw [hwanted]
    exact List.not_mem_nil

end PuppetC

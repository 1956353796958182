import PuppetC.Json.Writer
import PuppetC.Stdlib.Addresses

/-!
# The server of the agent

The agent takes a URL for its server and refuses plaintext to another machine. It decides by the
first characters of the URL, while a URL parser takes the host from between a userinfo and a port.
So a URL is accepted whose host only looks like the machine itself, unless what follows the
characters that were looked at makes them a host.

## Main definitions

* `normalizeServerUrl`, `isPlaintextRemoteUrl`, `serverUrlAllowed`: what `main` does with a URL.
* `urlAuthority`, `authorityHost`: the parts of a URL.
* `IsLoopbackHost`, `ReachesLoopback`: hosts that are the machine itself, and URLs that are safe.
* `LooksLoopback`, `PrefixSuffices`: what is looked at, and when this is enough.

## Main results

* `plaintext_only_to_loopback_iff`: the URLs on which the guard does what it is for.
-/

namespace PuppetC

/-! ### The guard -/

/-- The URL of the server with a scheme, as `main` completes it. -/
def normalizeServerUrl (url : Bytes) : Bytes :=
  if "http://".toList.isPrefixOf url || "https://".toList.isPrefixOf url then url
  else "http://".toList ++ url ++ ":8140".toList

/-- `is_plaintext_remote_url`. -/
def isPlaintextRemoteUrl (url : Bytes) : Bool :=
  if !"http://".toList.isPrefixOf url then false
  else
    let host := url.drop 7
    if "localhost".toList.isPrefixOf host &&
        (host[9]? = none || host[9]? = some ':' || host[9]? = some '/') then false
    else if "127.".toList.isPrefixOf host then false
    else if "::1".toList.isPrefixOf host || "[::1]".toList.isPrefixOf host then false
    else true

/-- `main` goes on with a URL. -/
def serverUrlAllowed (allowHttp : Bool) (url : Bytes) : Bool :=
  !isPlaintextRemoteUrl (normalizeServerUrl url) || allowHttp

/-! ### What a URL is -/

/-- The scheme of a URL. -/
def urlScheme (url : Bytes) : Bytes := url.takeWhile (· ≠ ':')

/-- The part of a text before a path, a query or a fragment. -/
def beforePath (t : Bytes) : Bytes := t.takeWhile fun c ↦ c ≠ '/' ∧ c ≠ '?' ∧ c ≠ '#'

/-- The authority of a URL. -/
def urlAuthority (url : Bytes) : Option Bytes :=
  match url.dropWhile (· ≠ ':') with
  | ':' :: '/' :: '/' :: t => some (beforePath t)
  | _ => none

/-- The characters of a userinfo. -/
def isUserinfoChar (c : Char) : Bool := c.isAlphanum || "-._~!$&'()*+,;=:%".toList.contains c

/-- No port, or a colon with digits. -/
def IsPort (t : Bytes) : Prop := t = [] ∨ ∃ ds, t = ':' :: ds ∧ ∀ c ∈ ds, c.isDigit

/-- The host at the start of a text, and what follows. -/
def readHost : Bytes → Option (Bytes × Bytes)
  | '[' :: t =>
    if ']' ∈ t then some ('[' :: t.takeWhile (· ≠ ']') ++ [']'], (t.dropWhile (· ≠ ']')).tail)
    else none
  | t => some (t.takeWhile (· ≠ ':'), t.dropWhile (· ≠ ':'))

/-- A text is a host and a port. -/
def IsHostPort (host t : Bytes) : Prop := ∃ port, readHost t = some (host, port) ∧ IsPort port

/-- An authority has a host. -/
def AuthorityHost (host a : Bytes) : Prop :=
  if '@' ∈ a then
    (∀ c ∈ a.takeWhile (· ≠ '@'), isUserinfoChar c) ∧
      IsHostPort host (a.dropWhile (· ≠ '@')).tail
  else IsHostPort host a

/-- The name `localhost`, an address that starts with 127, or the address ::1. -/
def IsLoopbackHost (host : Bytes) : Prop :=
  host.map lowerChar = "localhost".toList ∨
    (IsIpv4 host ∧ "127.".toList <+: host) ∨
    ∃ s, host = '[' :: s ++ [']'] ∧ IsIpv6 s ∧ s.filter (fun c ↦ c ∉ "0:.".toList) = ['1'] ∧
      s.getLast? = some '1'

/-- A URL that is encrypted, or goes to the machine itself. -/
def ReachesLoopback (url : Bytes) : Prop :=
  urlScheme url = "https".toList ∨
    ∃ a ∈ urlAuthority url, ∃ host, AuthorityHost host a ∧ IsLoopbackHost host

/-! ### What the guard looks at -/

/-- An authority starts as the guard expects. -/
def LooksLoopback (a : Bytes) : Prop :=
  a = "localhost".toList ∨ "localhost:".toList <+: a ∨ "127.".toList <+: a ∨ "::1".toList <+: a ∨
    "[::1]".toList <+: a

/-- What follows the characters that are looked at leaves them a host: a port after `localhost`
or `[::1]`, and numbers and a port after `127.`. -/
structure PrefixSuffices (a : Bytes) : Prop where
  localhost : ∀ ds, a = "localhost:".toList ++ ds → ∀ c ∈ ds, c.isDigit
  quad : "127.".toList <+: a → IsIpv4 (a.takeWhile (· ≠ ':')) ∧ IsPort (a.dropWhile (· ≠ ':'))
  colons : ¬ "::1".toList <+: a
  bracket : ∀ port, a = "[::1]".toList ++ port → IsPort port

/-- What is looked at is enough. With a userinfo it says nothing about the host. -/
def GuardSuffices (a : Bytes) : Prop :=
  LooksLoopback a →
    if '@' ∈ a then ∃ host, AuthorityHost host a ∧ IsLoopbackHost host else PrefixSuffices a

section Guard

variable {a t host : Bytes}

theorem prefix_beforePath_iff {p : Bytes}
    (hp : (p.all fun c ↦ c ≠ '/' ∧ c ≠ '?' ∧ c ≠ '#') = true) :
    p <+: beforePath t ↔ p <+: t := by
  refine ⟨fun h ↦ h.trans (List.takeWhile_prefix _), ?_⟩
  rintro ⟨s, rfl⟩
  rw [beforePath, List.takeWhile_append_of_pos (List.all_eq_true.1 hp)]
  exact List.prefix_append p _

theorem passes_iff : isPlaintextRemoteUrl ("http://".toList ++ t) = false ↔
    ("localhost".toList <+: t ∧ (t[9]? = none ∨ t[9]? = some ':' ∨ t[9]? = some '/')) ∨
      "127.".toList <+: t ∨ "::1".toList <+: t ∨ "[::1]".toList <+: t := by
  have hscheme : "http://".toList.isPrefixOf ("http://".toList ++ t) = true :=
    List.isPrefixOf_iff_prefix.2 (List.prefix_append _ t)
  have hdrop : ("http://".toList ++ t).drop 7 = t := rfl
  have hnext : (decide (t[9]? = none) || decide (t[9]? = some ':') || decide (t[9]? = some '/')) =
      decide (t[9]? = none ∨ t[9]? = some ':' ∨ t[9]? = some '/') := by
    rw [Bool.decide_or, Bool.decide_or, Bool.or_assoc]
  unfold isPlaintextRemoteUrl
  rw [hscheme, hdrop]
  simp only [← List.isPrefixOf_iff_prefix]
  rw [hnext]
  by_cases hends : t[9]? = none ∨ t[9]? = some ':' ∨ t[9]? = some '/' <;>
    simp only [hends, decide_true, decide_false, Bool.and_true, Bool.and_false] <;>
    cases "localhost".toList.isPrefixOf t <;> cases "127.".toList.isPrefixOf t <;>
      cases "::1".toList.isPrefixOf t <;> cases "[::1]".toList.isPrefixOf t <;> simp

/-- What passes the guard looks as it expects. -/
theorem looksLoopback_of_passes (h : isPlaintextRemoteUrl ("http://".toList ++ t) = false) :
    LooksLoopback (beforePath t) := by
  rcases passes_iff.1 h with ⟨⟨s, rfl⟩, hnext⟩ | h | h | h
  · have hs : ("localhost".toList ++ s)[9]? = s.head? := by
      rw [List.getElem?_append_right (by decide), List.head?_eq_getElem?]
      rfl
    rw [hs] at hnext
    have hbefore : beforePath ("localhost".toList ++ s) = "localhost".toList ++ beforePath s :=
      rfl
    rw [hbefore]
    cases s with
    | nil => exact Or.inl rfl
    | cons c s =>
      rcases hnext with hnext | hnext | hnext
      · cases hnext
      · cases hnext
        refine Or.inr (Or.inl ⟨beforePath s, ?_⟩)
        rw [beforePath, beforePath, List.takeWhile_cons_of_pos (by decide)]
        rfl
      · cases hnext
        refine Or.inl ?_
        rw [beforePath, List.takeWhile_cons_of_neg (by decide), List.append_nil]
  · exact Or.inr (Or.inr (Or.inl ((prefix_beforePath_iff rfl).2 h)))
  · exact Or.inr (Or.inr (Or.inr (Or.inl ((prefix_beforePath_iff rfl).2 h))))
  · exact Or.inr (Or.inr (Or.inr (Or.inr ((prefix_beforePath_iff rfl).2 h))))

/-- What looks as the guard expects passes, but for the name alone before a query. -/
theorem passes_of_looksLoopback (h : LooksLoopback (beforePath t)) :
    beforePath t = "localhost".toList ∨
      isPlaintextRemoteUrl ("http://".toList ++ t) = false := by
  rcases h with h | h | h | h | h
  · exact Or.inl h
  · obtain ⟨s, rfl⟩ := (prefix_beforePath_iff rfl).1 h
    exact Or.inr (passes_iff.2 (Or.inl ⟨⟨':' :: s, rfl⟩, Or.inr (Or.inl rfl)⟩))
  · exact Or.inr (passes_iff.2 (Or.inr (Or.inl ((prefix_beforePath_iff rfl).1 h))))
  · exact Or.inr (passes_iff.2
      (Or.inr (Or.inr (Or.inl ((prefix_beforePath_iff rfl).1 h)))))
  · exact Or.inr (passes_iff.2
      (Or.inr (Or.inr (Or.inr ((prefix_beforePath_iff rfl).1 h)))))

end Guard

/-! ### Hosts -/

section Host

variable {a t host : Bytes}

theorem isPort_cons_iff {ds : Bytes} : IsPort (':' :: ds) ↔ ∀ c ∈ ds, c.isDigit := by
  constructor
  · rintro (h | ⟨ds', h, hds'⟩)
    · cases h
    · cases h
      exact hds'
  · exact fun h ↦ Or.inr ⟨ds, rfl, h⟩

theorem isLoopbackHost_localhost : IsLoopbackHost "localhost".toList := Or.inl rfl

theorem isLoopbackHost_bracket : IsLoopbackHost "[::1]".toList := by
  refine Or.inr (Or.inr ⟨"::1".toList, rfl, ⟨false, Or.inr ⟨[], [['1']], 1, ?_, ?_, ?_, rfl⟩⟩, rfl,
    rfl⟩)
  · exact fun g hg ↦ absurd hg List.not_mem_nil
  · refine ⟨fun g hg ↦ ?_, rfl⟩
    rw [List.mem_singleton.1 hg]
    exact ⟨by decide, by decide, by simp [isHexDigit]⟩
  · decide

/-- A host that starts with a digit is the machine itself if it is a dotted quad. -/
theorem isLoopbackHost_quad_iff (h : "127.".toList <+: host) :
    IsLoopbackHost host ↔ IsIpv4 host := by
  obtain ⟨s, rfl⟩ := h
  constructor
  · rintro (h | ⟨h, -⟩ | ⟨s', h, -⟩)
    · cases h
    · exact h
    · cases h
  · exact fun h ↦ Or.inr (Or.inl ⟨h, List.prefix_append _ s⟩)

theorem not_isLoopbackHost_nil : ¬ IsLoopbackHost [] := by
  rintro (h | ⟨-, h⟩ | ⟨s, h, -⟩)
  · cases h
  · exact absurd (List.prefix_nil.1 h) (by decide)
  · cases h

/-- A host and a port without brackets. -/
theorem isHostPort_iff (h : t.head? ≠ some '[') :
    IsHostPort host t ↔ host = t.takeWhile (· ≠ ':') ∧ IsPort (t.dropWhile (· ≠ ':')) := by
  have hread : readHost t = some (t.takeWhile (· ≠ ':'), t.dropWhile (· ≠ ':')) := by
    cases t with
    | nil => rfl
    | cons c t =>
      by_cases hc : c = '['
      · exact absurd (congrArg some hc) h
      · rw [readHost]
        rintro s hs
        exact hc (List.cons.inj hs).1
  rw [IsHostPort, hread]
  constructor
  · rintro ⟨port, heq, hport⟩
    cases heq
    exact ⟨rfl, hport⟩
  · rintro ⟨rfl, hport⟩
    exact ⟨_, rfl, hport⟩

/-- The guard is enough for an authority without a userinfo if what follows makes it a host. -/
theorem prefixSuffices_iff (hlooks : LooksLoopback a) :
    PrefixSuffices a ↔ ∃ host, IsHostPort host a ∧ IsLoopbackHost host := by
  rcases hlooks with rfl | ⟨ds, rfl⟩ | ⟨s, rfl⟩ | ⟨s, rfl⟩ | ⟨port, rfl⟩
  · refine iff_of_true ⟨fun ds h ↦ ?_, fun h ↦ ?_, by decide, fun port h ↦ ?_⟩
      ⟨_, (isHostPort_iff (by decide)).2 ⟨rfl, Or.inl rfl⟩, isLoopbackHost_localhost⟩
    · have hlength := congrArg List.length h
      rw [List.length_append] at hlength
      change 9 = 10 + _ at hlength
      omega
    · exact absurd h (by decide)
    · cases h
  · have hhost : ("localhost:".toList ++ ds).takeWhile (· ≠ ':') = "localhost".toList := rfl
    have hrest : ("localhost:".toList ++ ds).dropWhile (· ≠ ':') = ':' :: ds := rfl
    constructor
    · intro h
      refine ⟨_, (isHostPort_iff fun h ↦ (by cases h)).2 ⟨hhost.symm, ?_⟩, isLoopbackHost_localhost⟩
      rw [hrest]
      exact isPort_cons_iff.2 (h.localhost ds rfl)
    · rintro ⟨host, hhostport, -⟩
      have hport := ((isHostPort_iff fun h ↦ (by cases h)).1 hhostport).2
      rw [hrest, isPort_cons_iff] at hport
      refine ⟨fun ds' h ↦ ?_, fun h ↦ ?_, fun h ↦ ?_, fun port h ↦ ?_⟩
      · rwa [← List.append_cancel_left h]
      · cases (List.cons_prefix_cons.1 h).1
      · cases (List.cons_prefix_cons.1 h).1
      · cases h
  · have hquadhead : "127.".toList <+: ("127.".toList ++ s).takeWhile (· ≠ ':') :=
      ⟨s.takeWhile (· ≠ ':'), rfl⟩
    constructor
    · intro h
      obtain ⟨hquad, hport⟩ := h.quad (List.prefix_append _ s)
      exact ⟨_, (isHostPort_iff fun h ↦ (by cases h)).2 ⟨rfl, hport⟩,
        (isLoopbackHost_quad_iff hquadhead).2 hquad⟩
    · rintro ⟨host, hhostport, hloopback⟩
      obtain ⟨rfl, hport⟩ := (isHostPort_iff fun h ↦ (by cases h)).1 hhostport
      refine ⟨fun ds h ↦ ?_, fun _ ↦ ⟨(isLoopbackHost_quad_iff hquadhead).1 hloopback, hport⟩,
        fun h ↦ ?_, fun port h ↦ ?_⟩
      · cases h
      · cases (List.cons_prefix_cons.1 h).1
      · cases h
  · refine iff_of_false (fun h ↦ h.colons (List.prefix_append _ s)) ?_
    rintro ⟨host, hhostport, hloopback⟩
    obtain ⟨rfl, -⟩ := (isHostPort_iff fun h ↦ (by cases h)).1 hhostport
    exact not_isLoopbackHost_nil hloopback
  · have hread : readHost ("[::1]".toList ++ port) = some ("[::1]".toList, port) := by
      change readHost ('[' :: ':' :: ':' :: '1' :: ']' :: port) = _
      rw [readHost, if_pos (by simp)]
      rfl
    constructor
    · exact fun h ↦ ⟨_, ⟨port, hread, h.bracket port rfl⟩, isLoopbackHost_bracket⟩
    · rintro ⟨host, ⟨port', hread', hport⟩, -⟩
      rw [hread] at hread'
      cases hread'
      refine ⟨fun ds h ↦ ?_, fun h ↦ ?_, fun h ↦ ?_, fun port h ↦ ?_⟩
      · cases h
      · cases (List.cons_prefix_cons.1 h).1
      · cases (List.cons_prefix_cons.1 h).1
      · rwa [← List.append_cancel_left h]

end Host

/-! ### URLs -/

section Url

variable {url t : Bytes}

theorem reachesLoopback_https : ReachesLoopback ("https://".toList ++ t) := Or.inl rfl

theorem reachesLoopback_http_iff :
    ReachesLoopback ("http://".toList ++ t) ↔
      ∃ host, AuthorityHost host (beforePath t) ∧ IsLoopbackHost host := by
  constructor
  · rintro (h | ⟨a, ha, h⟩)
    · cases h
    · cases ha
      exact h
  · exact fun h ↦ Or.inr ⟨_, rfl, h⟩

/-- The URL has one of the two schemes. -/
theorem normalizeServerUrl_cases (url : Bytes) :
    (∃ t, normalizeServerUrl url = "https://".toList ++ t) ∨
      ∃ t, normalizeServerUrl url = "http://".toList ++ t := by
  unfold normalizeServerUrl
  split_ifs with h
  · rcases Bool.or_eq_true_iff.1 h with h | h
    · obtain ⟨t, ht⟩ := List.isPrefixOf_iff_prefix.1 h
      exact Or.inr ⟨t, ht.symm⟩
    · obtain ⟨t, ht⟩ := List.isPrefixOf_iff_prefix.1 h
      exact Or.inl ⟨t, ht.symm⟩
  · exact Or.inr ⟨url ++ ":8140".toList, List.append_assoc ..⟩

/-- Without leave for plaintext, the agent goes on only if the URL is encrypted or goes to the
machine itself, exactly if the URL is encrypted or what the guard looks at is enough. -/
theorem plaintext_only_to_loopback_iff (url : Bytes) :
    (serverUrlAllowed false url = true → ReachesLoopback (normalizeServerUrl url)) ↔
      urlScheme (normalizeServerUrl url) = "https".toList ∨
        ∀ a ∈ urlAuthority (normalizeServerUrl url), GuardSuffices a := by
  have hallowed : serverUrlAllowed false url = true ↔
      isPlaintextRemoteUrl (normalizeServerUrl url) = false := by
    simp [serverUrlAllowed]
  rw [hallowed]
  rcases normalizeServerUrl_cases url with ⟨t, ht⟩ | ⟨t, ht⟩ <;> rw [ht]
  · exact iff_of_true (fun _ ↦ reachesLoopback_https) (Or.inl rfl)
  have hscheme : ¬ urlScheme ("http://".toList ++ t) = "https".toList := by
    intro h
    cases h
  have hauthority : urlAuthority ("http://".toList ++ t) = some (beforePath t) := rfl
  rw [reachesLoopback_http_iff, hauthority]
  constructor
  · intro h
    refine Or.inr fun a ha hlooks ↦ ?_
    cases ha
    rcases passes_of_looksLoopback hlooks with hname | hpasses
    · rw [hname, if_neg (by decide)]
      exact (prefixSuffices_iff (Or.inl rfl)).2
        ⟨_, (isHostPort_iff (by decide)).2 ⟨rfl, Or.inl rfl⟩, isLoopbackHost_localhost⟩
    · obtain ⟨host, hhost, hloopback⟩ := h hpasses
      split_ifs with hat
      · exact ⟨host, hhost, hloopback⟩
      · rw [AuthorityHost, if_neg hat] at hhost
        exact (prefixSuffices_iff hlooks).2 ⟨host, hhost, hloopback⟩
  · rintro (h | h) hpasses
    · exact absurd h hscheme
    · have hlooks := looksLoopback_of_passes hpasses
      have hsuffices := h _ rfl hlooks
      split_ifs at hsuffices with hat
      · exact hsuffices
      · obtain ⟨host, hhost, hloopback⟩ := (prefixSuffices_iff hlooks).1 hsuffices
        refine ⟨host, ?_, hloopback⟩
        rwa [AuthorityHost, if_neg hat]

/-- A host whose name starts like an address is taken for the machine itself. -/
theorem not_reachesLoopback_name :
    serverUrlAllowed false "http://127.evil.example/".toList = true ∧
      ¬ ReachesLoopback (normalizeServerUrl "http://127.evil.example/".toList) := by
  refine ⟨rfl, ?_⟩
  have hurl : normalizeServerUrl "http://127.evil.example/".toList =
      "http://".toList ++ "127.evil.example/".toList := rfl
  rw [hurl, reachesLoopback_http_iff]
  rintro ⟨host, hhost, hloopback⟩
  have hnone : '@' ∉ beforePath "127.evil.example/".toList := by decide
  rw [AuthorityHost, if_neg hnone] at hhost
  obtain ⟨rfl, -⟩ := (isHostPort_iff (by decide)).1 hhost
  have hquadhead : "127.".toList <+:
      (beforePath "127.evil.example/".toList).takeWhile (· ≠ ':') := by decide
  have hquad := (isDottedQuad_iff .wrap _).2 ((isLoopbackHost_quad_iff hquadhead).1 hloopback)
  revert hquad
  decide +kernel

end Url

end PuppetC

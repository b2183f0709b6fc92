import Wrk.HttpParser.Fields
import Wrk.HttpParser.RequestLine

/-!
# The Fields of a Request

A parser of requests reads the fields of a head as a parser of responses does,
so that what is known of one byte is known of it here as well. Of a request it
matters besides whether the connection persists. That is decided by flags
which only a field named `Connection` or `Proxy-Connection` sets: the parser
compares the names with both words and looks for keywords in no other value.

## Main definitions

* `Approaches`: The comparison with the two words.
* `manners`: What decides whether the connection persists.

## Theorems

* `approaches_char`: One more character of a name.
* `passes_field`, `passes_fields`: A field, and fields.
-/

namespace Wrk

namespace HttpParser

namespace Request

open Http

/-! ### Bytes within a head -/

/-- A parser past the request line. -/
def within (m : HttpMethod) (q : HttpParser) : RequestParser := ⟨none, m, q⟩

theorem passes_within (m : HttpMethod) (q q' : HttpParser) (ch : Byte) (ops : List Op)
    (skip : Option Nat) (h : coreStep m q none ch = ⟨q', ops, .next, skip⟩) :
    Passes (within m q) [ch] (within m q') := by
  have hstep : step (within m q) none ch = ⟨within m q', ops, .next, skip⟩ := by
    change (⟨within m (coreStep m q none ch).parser, (coreStep m q none ch).ops,
      (coreStep m q none ch).verdict, (coreStep m q none ch).skip⟩ : RequestOut) = _
    rw [h]
  have hpass := passes_byte (within m q) ch (by rw [hstep])
  rw [hstep] at hpass
  exact hpass

/-- The states of a field in which the two parsers are the same. -/
def shared : State → Bool
  | .headerField | .headerValueDiscardWs | .headerValueDiscardWsAlmostDone | .headerValueStart
  | .headerValue | .headerAlmostDone => true
  | _ => false

theorem coreStep_shared (m : HttpMethod) (q : HttpParser) (ch : Byte)
    (h : shared q.state = true) : coreStep m q none ch = byteStep q none ch := by
  unfold coreStep
  cases hs : q.state with
  | headerField | headerValueDiscardWs | headerValueDiscardWsAlmostDone | headerValueStart
  | headerValue | headerAlmostDone => rfl
  | _ => exact absurd ((congrArg shared hs).symm.trans h) Bool.false_ne_true

/-- So are they at the beginning of a line that does not end the head. -/
theorem coreStep_atLine (m : HttpMethod) (q : HttpParser) (ch : Byte) (h : AtLine q)
    (hch : ch ≠ LF) : coreStep m q none ch = byteStep q none ch := by
  have hstart : ∀ p, headerFieldStart m p ch = HttpParser.headerFieldStart p ch :=
    fun p => if_neg hch
  unfold coreStep byteStep
  rcases h with hs | hs | hs
  · rw [hs]
    exact hstart q
  · rw [hs]
    dsimp only
    unfold headerValueLws HttpParser.headerValueLws
    rw [hstart]
  · rw [hs]
    dsimp only
    unfold headerValueDiscardLws HttpParser.headerValueDiscardLws
    rw [hstart]

/-! ### Names -/

/-- The words a name approaches in a state. -/
def approached : HeaderState → Option Bytes
  | .c | .co | .con | .matchingConnection => some CONNECTION
  | .matchingProxyConnection => some PROXY_CONNECTION
  | _ => none

/-- The comparison with the two words after part of a name, given in lower
    case. -/
structure Approaches (part : Bytes) (q : HttpParser) : Prop where
  on : ∀ word, approached q.headerState = some word → part <+: word ∧ q.index + 1 = part.length
  c : q.headerState = .c → part.length = 1
  co : q.headerState = .co → part.length = 2
  con : q.headerState = .con → part.length = 3
  found : q.headerState = .connection → part = CONNECTION ∨ part = PROXY_CONNECTION

/-- In a state of no word there is nothing to know. -/
theorem approaches_off (part : Bytes) (q : HttpParser) (h : approached q.headerState = none)
    (hfound : q.headerState ≠ .connection) : Approaches part q := by
  refine ⟨fun word hw => absurd (h.symm.trans hw) (Option.some_ne_none word).symm, fun hs => ?_,
    fun hs => ?_, fun hs => ?_, fun hs => absurd hs hfound⟩
  all_goals
    rw [hs] at h
    exact absurd h (Option.some_ne_none _)

/-- What the values depend on that frame no message. -/
structure Manners where
  major : Nat
  minor : Nat
  close : Bool
  upgrade : Bool

def manners (q : HttpParser) : Manners :=
  ⟨q.httpMajor, q.httpMinor, q.flags.connectionClose, q.flags.connectionUpgrade⟩

theorem approaches_start (q : HttpParser) (c : Byte) : Approaches [c] (nameStart q c) := by
  by_cases hc : c = 'c'.toUInt8
  · rw [hc]
    refine ⟨fun word hw => ?_, fun _ => rfl, nofun, nofun, nofun⟩
    rw [← Option.some.inj hw]
    exact ⟨by decide, rfl⟩
  · by_cases hp : c = 'p'.toUInt8
    · rw [hp]
      refine ⟨fun word hw => ?_, nofun, nofun, nofun, nofun⟩
      rw [← Option.some.inj hw]
      exact ⟨by decide, rfl⟩
    · have hstate : (nameStart q c).headerState =
          if c = 't'.toUInt8 then .matchingTransferEncoding
          else if c = 'u'.toUInt8 then .matchingUpgrade else .general := by
        unfold nameStart
        rw [if_neg hc, if_neg hp]
      refine approaches_off _ _ ?_ ?_
      · rw [hstate]
        split_ifs <;> rfl
      · rw [hstate]
        split_ifs <;> exact HeaderState.noConfusion

/-- What one more character does that is compared with a word. -/
theorem approaches_matching (part word : Bytes) (q : HttpParser) (c : Byte)
    (hword : word = CONNECTION ∨ word = PROXY_CONNECTION)
    (hs : approached q.headerState = some word) (hlong : q.headerState ≠ .c ∧
      q.headerState ≠ .co ∧ q.headerState ≠ .con) (hpart : part <+: word)
    (hindex : q.index + 1 = part.length) (hc : c ≠ 0) :
    Approaches (part ++ [c]) (matching q word c .connection .general) := by
  have hgeneral : Approaches (part ++ [c])
      { q with index := q.index + 1, headerState := .general } :=
    approaches_off _ _ rfl HeaderState.noConfusion
  by_cases hlen : part.length < word.length
  · rw [matching_eq word q c part.length .connection .general hlen hindex]
    by_cases hmatch : c = word.getD part.length 0
    · have hnext := (isPrefix_snoc part word c).mpr ⟨hpart, hlen, hmatch⟩
      by_cases hlast : part.length + 1 < word.length
      · rw [if_pos hmatch, if_pos hlast]
        refine ⟨fun word' hw => ?_, fun h => absurd h hlong.1, fun h => absurd h hlong.2.1,
          fun h => absurd h hlong.2.2, fun h => ?_⟩
        · rw [← Option.some.inj (hs.symm.trans hw)]
          exact ⟨hnext, by rw [List.length_append]; rfl⟩
        · exact absurd ((congrArg approached h).symm.trans hs) (Option.some_ne_none word).symm
      · -- The last character of the word.
        rw [if_pos hmatch, if_neg hlast]
        have hwhole : part ++ [c] = word := by
          refine hnext.eq_of_length_le ?_
          rw [List.length_append, List.length_singleton]
          omega
        refine ⟨nofun, nofun, nofun, nofun, fun _ => ?_⟩
        rw [hwhole]
        exact hword
    · rw [if_neg hmatch, ← hindex]
      exact hgeneral
  · -- Past the word there is its zero byte.
    have hpast : word.getD (q.index + 1) 0 = 0 := by
      rw [hindex, List.getD_eq_getElem?_getD, List.getElem?_eq_none (by omega), Option.getD_none]
    unfold matching
    dsimp only
    rw [hpast, if_pos (by simp only [ne_eq, hc, not_false_eq_true, decide_true, Bool.or_true])]
    exact hgeneral

/-- A letter of the common beginning of several words. -/
theorem approaches_letter (part : Bytes) (q : HttpParser) (c : Byte) (h : Approaches part q)
    (k : Nat) (s : HeaderState) (hq : approached q.headerState = some CONNECTION)
    (hk : part.length = k) (hs : approached s = some CONNECTION) (hlt : k < CONNECTION.length)
    (hmatch : c = CONNECTION.getD k 0) (hc : s = .c → k = 0) (hco : s = .co → k = 1)
    (hcon : s = .con → k = 2) (hno : s ≠ .connection) :
    Approaches (part ++ [c]) { q with index := q.index + 1, headerState := s } := by
  have hlength : (part ++ [c]).length = part.length + 1 := by
    rw [List.length_append]
    rfl
  rcases h.on CONNECTION hq with ⟨hpart, hindex⟩
  refine ⟨fun word hw => ?_, fun hs' => ?_, fun hs' => ?_, fun hs' => ?_,
    fun hs' => absurd hs' hno⟩
  · rw [← Option.some.inj (hs.symm.trans hw), isPrefix_snoc, hk]
    exact ⟨⟨hpart, hlt, hmatch⟩, by rw [hlength]; exact congrArg (· + 1) hindex⟩
  · rw [hlength, hk, hc hs']
  · rw [hlength, hk, hco hs']
  · rw [hlength, hk, hcon hs']

/-- One more character of a name. -/
theorem approaches_char (part : Bytes) (q : HttpParser) (ch : Byte) (h : Approaches part q)
    (hch : tokens ch ≠ 0) :
    Approaches (part ++ [tokens ch]) (headerFieldChar q ch (tokens ch)) := by
  have hoff : ∀ p : HttpParser, approached p.headerState = none → p.headerState ≠ .connection →
      Approaches (part ++ [tokens ch]) p := fun p => approaches_off _ p
  unfold headerFieldChar
  cases hs : q.headerState with
  | c =>
      have hq : approached q.headerState = some CONNECTION := by
        rw [hs]
        rfl
      dsimp only
      by_cases ho : tokens ch = 'o'.toUInt8
      · rw [if_pos ho]
        exact approaches_letter part q _ h 1 .co hq (h.c hs) rfl (by decide) ho nofun
          (fun _ => rfl) nofun nofun
      · rw [if_neg ho]
        exact hoff _ rfl HeaderState.noConfusion
  | co =>
      have hq : approached q.headerState = some CONNECTION := by
        rw [hs]
        rfl
      dsimp only
      by_cases hn : tokens ch = 'n'.toUInt8
      · rw [if_pos hn]
        exact approaches_letter part q _ h 2 .con hq (h.co hs) rfl (by decide) hn nofun nofun
          (fun _ => rfl) nofun
      · rw [if_neg hn]
        exact hoff _ rfl HeaderState.noConfusion
  | con =>
      have hq : approached q.headerState = some CONNECTION := by
        rw [hs]
        rfl
      dsimp only
      by_cases hn : tokens ch = 'n'.toUInt8
      · rw [if_pos hn]
        exact approaches_letter part q _ h 3 .matchingConnection hq (h.con hs) rfl (by decide) hn
          nofun nofun nofun nofun
      · rw [if_neg hn]
        refine hoff _ ?_ ?_
        · dsimp only
          split_ifs <;> rfl
        · dsimp only
          split_ifs <;> exact HeaderState.noConfusion
  | matchingConnection =>
      have hq : approached q.headerState = some CONNECTION := by
        rw [hs]
        rfl
      rcases h.on _ hq with ⟨hpart, hindex⟩
      refine approaches_matching part CONNECTION q _ (Or.inl rfl) hq ?_ hpart hindex hch
      rw [hs]
      exact ⟨nofun, nofun, nofun⟩
  | matchingProxyConnection =>
      have hq : approached q.headerState = some PROXY_CONNECTION := by
        rw [hs]
        rfl
      rcases h.on _ hq with ⟨hpart, hindex⟩
      refine approaches_matching part PROXY_CONNECTION q _ (Or.inr rfl) hq ?_ hpart hindex hch
      rw [hs]
      exact ⟨nofun, nofun, nofun⟩
  | matchingContentLength | matchingTransferEncoding | matchingUpgrade =>
      have hmember : ∀ word found, approached found = none → found ≠ .connection →
          Approaches (part ++ [tokens ch]) (matching q word (tokens ch) found .general) := by
        intro word found hfound hno
        unfold matching
        dsimp only
        split_ifs
        · exact hoff _ rfl HeaderState.noConfusion
        · exact hoff _ hfound hno
        · refine hoff _ ?_ ?_
          · dsimp only
            rw [hs]
            rfl
          · dsimp only
            rw [hs]
            exact HeaderState.noConfusion
      exact hmember _ _ rfl HeaderState.noConfusion
  | connection | contentLength | transferEncoding | upgrade =>
      -- No name goes on after a word: a space is not part of one.
      have hspace : ch ≠ ' '.toUInt8 := (token_not_end ch hch).2.2
      dsimp only
      rw [if_pos hspace]
      exact hoff _ rfl HeaderState.noConfusion
  | _ =>
      refine hoff q ?_ ?_
      · rw [hs]
        rfl
      · rw [hs]
        exact HeaderState.noConfusion

/-! ### Manners -/

/-- The states of a value in which keywords are looked for. -/
def connectionValue : HeaderState → Bool
  | .connection | .matchingConnectionTokenStart | .matchingConnectionKeepAlive
  | .matchingConnectionClose | .matchingConnectionUpgrade | .matchingConnectionToken
  | .connectionKeepAlive | .connectionClose | .connectionUpgrade => true
  | _ => false

theorem matching_manners (q : HttpParser) (word : Bytes) (c : Byte)
    (found mismatch : HeaderState) : manners (matching q word c found mismatch) = manners q := by
  unfold matching
  dsimp only
  split_ifs <;> rfl

theorem headerFieldChar_manners (q : HttpParser) (ch c : Byte) :
    manners (headerFieldChar q ch c) = manners q := by
  unfold headerFieldChar
  split
  all_goals first
    | rfl
    | exact matching_manners _ _ _ _ _
    | (split_ifs <;> rfl)

/-- A name leads to no keyword. -/
theorem headerFieldChar_aside (q : HttpParser) (ch c : Byte)
    (h : connectionValue q.headerState = false ∨ q.headerState = .connection) :
    connectionValue (headerFieldChar q ch c).headerState = false ∨
      (headerFieldChar q ch c).headerState = .connection := by
  have hmatching : ∀ word found, connectionValue found = false ∨ found = .connection →
      connectionValue (matching q word c found .general).headerState = false ∨
        (matching q word c found .general).headerState = .connection := by
    intro word found hf
    unfold matching
    dsimp only
    split_ifs
    · exact Or.inl rfl
    · exact hf
    · exact h
  unfold headerFieldChar
  cases hs : q.headerState with
  | matchingConnection | matchingProxyConnection => exact hmatching _ _ (Or.inr rfl)
  | matchingContentLength | matchingTransferEncoding | matchingUpgrade =>
      exact hmatching _ _ (Or.inl rfl)
  | c | co | con =>
      refine Or.inl ?_
      dsimp only
      split_ifs <;> rfl
  | connection | contentLength | transferEncoding | upgrade =>
      dsimp only
      split_ifs
      · exact Or.inl rfl
      · exact h
  | _ => exact h

/-- The first character of a value without keywords. -/
theorem headerValueStart_aside (q : HttpParser) (ch : Byte)
    (h : connectionValue q.headerState = false) :
    manners (headerValueStart q ch).parser = manners q ∧
      connectionValue (headerValueStart q ch).parser.headerState = false := by
  unfold headerValueStart
  dsimp only
  cases hs : q.headerState with
  | transferEncoding =>
      refine ⟨rfl, ?_⟩
      change connectionValue (if _ then _ else _) = false
      split_ifs <;> rfl
  | contentLength =>
      dsimp only
      split_ifs <;> exact ⟨rfl, rfl⟩
  | _ =>
      first
      | exact ⟨rfl, rfl⟩
      | exact absurd ((congrArg connectionValue hs).symm.trans h) (Bool.false_ne_true).symm

/-- One more character of a value without keywords. -/
theorem headerValueChar_aside (q : HttpParser) (ch : Byte)
    (h : connectionValue q.headerState = false) :
    manners (headerValueChar q ch).parser = manners q ∧
      connectionValue (headerValueChar q ch).parser.headerState = false := by
  have hsame : manners q = manners q ∧ connectionValue q.headerState = false := ⟨rfl, h⟩
  unfold headerValueChar
  dsimp only
  cases hs : q.headerState with
  | general | transferEncoding => exact hsame
  | contentLength =>
      dsimp only
      split_ifs
      · exact hsame
      · exact hsame
      · exact hsame
      · exact ⟨rfl, rfl⟩
  | matchingTransferEncodingChunked =>
      exact ⟨matching_manners q _ _ _ _, matching_member _ q _ _ _ _ h rfl rfl⟩
  | transferEncodingChunked =>
      dsimp only
      split_ifs
      · exact ⟨rfl, rfl⟩
      · exact hsame
  | _ =>
      first
      | exact ⟨rfl, rfl⟩
      | exact absurd ((congrArg connectionValue hs).symm.trans h) (Bool.false_ne_true).symm

/-- What is finished at the end of such a value. -/
theorem lineStart_manners (q : HttpParser) (h : connectionValue q.headerState = false) :
    manners (lineStart q) = manners q := by
  unfold lineStart
  split_ifs
  · rfl
  · unfold finishHeader
    cases hs : q.headerState with
    | connectionKeepAlive | connectionClose | connectionUpgrade =>
        exact absurd ((congrArg connectionValue hs).symm.trans h) (Bool.false_ne_true).symm
    | _ => rfl

/-! ### A field -/

/-- A byte that a parser of responses reads, in a state that both share. -/
theorem passes_of_reads (m : HttpMethod) (q q' : HttpParser) (ch : Byte) (k : Nat)
    (h : Reads q [ch] q' k) (hk : k ≤ httpMaxHeaderSize)
    (hcore : coreStep m q none ch = byteStep q none ch) :
    Passes (within m q) [ch] (within m q') ∧
      HttpParser.counted 0 q' = HttpParser.counted 0 (byteStep q none ch).parser := by
  have hread := h 0 (Nat.zero_le _)
  rw [Nat.zero_add, if_pos hk] at hread
  rcases bytewise_cons _ _ ch [] 0 hread with ⟨q1, k1, k2, hone, hnil, hsum⟩
  rcases bytewise_nil q1 _ k2 hnil with ⟨rfl, _⟩
  rcases alone_cases _ _ ch k1 (Nat.zero_le _) hone with
    ⟨_, _, n, _, ⟨hv, _, hq', _⟩ | ⟨_, _, hk1, _⟩⟩
  · -- The byte leads to the same parser, but for the count.
    rw [byteStep_counted] at hv hq'
    have hsame : HttpParser.counted 0 q' = HttpParser.counted 0 (byteStep q none ch).parser := by
      have hzero := congrArg (HttpParser.counted 0) hq'
      exact hzero
    refine ⟨?_, hsame⟩
    have hpass := passes_within m q (coreStep m q none ch).parser ch _ _
      (show coreStep m q none ch = ⟨_, _, .next, _⟩ from by
        rw [hcore]
        exact congrArg (fun v => Out.mk _ _ v _) hv)
    unfold Passes at hpass ⊢
    rw [hpass]
    refine congrArg some ?_
    change within m (HttpParser.counted 0 (coreStep m q none ch).parser) =
      within m (HttpParser.counted 0 q')
    rw [hsame, hcore]
  · omega

/-- The parser after part of a name. -/
structure NamingBoth (f : Facts) (v : Manners) (part : Bytes) (q : HttpParser) : Prop where
  naming : Naming f part q
  manners : manners q = v
  approaches : Approaches (part.map lowerCase) q
  aside : connectionValue q.headerState = false ∨ q.headerState = .connection

variable (m : HttpMethod) (q : HttpParser) (fd : Field) (f : Facts)

theorem passes_nameChar (v : Manners) (hok : f.errno = .ok) (part : Bytes) (p : HttpParser)
    (ch : Byte) (h : NamingBoth f v part p) (hch : isTokenChar ch = true) :
    ∃ p', Passes (within m p) [ch] (within m p') ∧ NamingBoth f v (part ++ [ch]) p' := by
  rcases tokens_of_token ch hch with ⟨hlower, hne, _⟩
  rcases reads_nameChar f hok part p ch h.naming hch with ⟨p', hread, hnaming⟩
  have hshared : shared p.state = true := by
    rw [h.naming.state]
    rfl
  rcases passes_of_reads m p p' ch 2 hread (by decide) (coreStep_shared m p ch hshared) with
    ⟨hpass, hsame⟩
  have hstep : (byteStep p none ch).parser = headerFieldChar p ch (tokens ch) := by
    unfold byteStep
    rw [h.naming.state]
    exact congrArg Out.parser (if_pos hne)
  rw [hstep] at hsame
  have hp' : HttpParser.counted p'.nread (headerFieldChar p ch (tokens ch)) = p' := by
    have hn := congrArg (HttpParser.counted p'.nread) hsame
    exact hn.symm
  have hpart : (part ++ [ch]).map lowerCase = part.map lowerCase ++ [tokens ch] := by
    rw [List.map_append, hlower]
    rfl
  refine ⟨p', hpass, hnaming, ?_, ?_, ?_⟩
  · rw [← hp', ← h.manners]
    exact headerFieldChar_manners p ch (tokens ch)
  · rw [hpart]
    have happroaches := approaches_char _ p ch h.approaches hne
    rw [← hp']
    exact ⟨happroaches.on, happroaches.c, happroaches.co, happroaches.con, happroaches.found⟩
  · rw [← hp']
    exact headerFieldChar_aside p ch (tokens ch) h.aside

/-- A name and its colon. No keyword is looked for unless the name is one of
    the two words. -/
theorem passes_name (hq : AtLine q) (hok : q.httpErrno = .ok) :
    ∃ q', Passes (within m q) (fd.name ++ [COLON]) (within m q') ∧
      Named fd (facts (lineStart q)) q' ∧ manners q' = manners (lineStart q) ∧
      (fd.isConnection = false → connectionValue q'.headerState = false) := by
  have htoken := fd.token
  have hnamed := fd.named
  cases hname : fd.name with
  | nil =>
      rw [hname] at hnamed
      exact absurd hnamed.symm Bool.false_ne_true
  | cons ch more =>
      rw [hname, List.all_cons, Bool.and_eq_true] at htoken
      rcases tokens_of_token ch htoken.1 with ⟨hlower, hne, _⟩
      have herr : (facts (lineStart q)).errno = .ok := by
        unfold lineStart
        split_ifs
        · exact hok
        · exact (errno_of_kept _ _ (finishHeader_kept q)).trans hok
      rcases passes_of_reads m q _ ch 1 (reads_nameStart q ch hq hok htoken.1) (by decide)
        (coreStep_atLine m q ch hq (token_not_end ch hne).2.1) with ⟨hfirst, _⟩
      rcases tracks_nameStart (lineStart q) (tokens ch) with ⟨hlength, hcoding, hvalue⟩
      have happroaches := approaches_start (lineStart q) (tokens ch)
      have hone : [tokens ch] = [ch].map lowerCase := by
        rw [hlower]
        rfl
      rw [hone] at hlength hcoding happroaches
      -- The first letter leads to no keyword either.
      have haside : connectionValue (nameStart (lineStart q) (tokens ch)).headerState = false := by
        unfold nameStart
        dsimp only
        split_ifs <;> rfl
      rcases passes_loop (within m) (NamingBoth (facts (lineStart q)) (manners (lineStart q)))
        isTokenChar (fun part p ch => passes_nameChar m _ _ herr part p ch) more [ch]
        (nameStart (lineStart q) (tokens ch))
        ⟨⟨rfl, rfl, hvalue, Nat.le_refl 1, hlength, hcoding⟩, rfl, happroaches, Or.inl haside⟩
        htoken.2 with ⟨p, hrest, hp⟩
      have hcolon :
          Passes (within m p) [COLON] (within m { p with state := .headerValueDiscardWs }) := by
        refine passes_within m p _ COLON [.count, .emit .headerField] none ?_
        rw [coreStep_shared m p COLON (by rw [hp.naming.state]; rfl)]
        unfold byteStep
        rw [hp.naming.state]
        rfl
      refine ⟨{ p with state := .headerValueDiscardWs },
        passes_append _ _ _ _ _ (passes_append _ _ _ [ch] more hfirst hrest) hcolon,
        named_of_naming _ p fd (by rw [hname]; exact hp.naming), hp.manners, fun hno => ?_⟩
      refine hp.aside.resolve_right (fun hfound => ?_)
      -- The name is one of the two words where the comparison says so.
      have hword := hp.approaches.found hfound
      unfold Field.isConnection Field.isNamed at hno
      rw [hname, Bool.or_eq_false_iff, decide_eq_false_iff_not, decide_eq_false_iff_not] at hno
      exact hword.elim hno.1 hno.2

/-! ### Values -/

/-- The end of a line after a value. -/
theorem passes_valueEnd (hs : q.state = .headerValue) :
    Passes (within m q) CRLF (within m { q with state := .headerValueLws }) := by
  have hcr : Passes (within m q) [CR] (within m { q with state := .headerAlmostDone }) := by
    refine passes_within m q _ CR [.emit .headerValue, .count] none ?_
    rw [coreStep_shared m q CR (by rw [hs]; rfl)]
    unfold byteStep
    rw [hs]
    rfl
  have hlf : Passes (within m { q with state := .headerAlmostDone }) [LF]
      (within m { q with state := .headerValueLws }) :=
    passes_within m _ _ LF [] none rfl
  exact passes_append _ _ _ [CR] [LF] hcr hlf

/-- The end of a line without a value. -/
theorem passes_emptyEnd (hs : q.state = .headerValueDiscardWs) :
    Passes (within m q) CRLF (within m { q with state := .headerValueDiscardLws }) := by
  have hcr : Passes (within m q) [CR]
      (within m { q with state := .headerValueDiscardWsAlmostDone }) := by
    refine passes_within m q _ CR [] none ?_
    rw [coreStep_shared m q CR (by rw [hs]; rfl)]
    unfold byteStep
    rw [hs]
    rfl
  have hlf : Passes (within m { q with state := .headerValueDiscardWsAlmostDone }) [LF]
      (within m { q with state := .headerValueDiscardLws }) :=
    passes_within m _ _ LF [] none rfl
  exact passes_append _ _ _ [CR] [LF] hcr hlf

/-- The white space before a value. -/
theorem passes_lead (lead : Bytes) (hs : q.state = .headerValueDiscardWs)
    (hlead : lead.all isSpace = true) : Passes (within m q) lead (within m q) := by
  have hspace : ∀ (part : Bytes) (p : HttpParser) (ch : Byte), p = q → isSpace ch = true →
      ∃ p', Passes (within m p) [ch] (within m p') ∧ p' = q := by
    rintro part p ch rfl hch
    refine ⟨p, passes_within m p p ch [] none ?_, rfl⟩
    rw [coreStep_shared m p ch (by rw [hs]; rfl)]
    unfold byteStep
    rw [hs]
    dsimp only
    unfold headerValueDiscardWs
    rw [isBlank_eq, hch, if_pos rfl]
    rfl
  rcases passes_loop (within m) (fun _ p => p = q) isSpace hspace lead [] q rfl hlead with
    ⟨p, hpass, rfl⟩
  exact hpass

/-- The first byte of a value. -/
theorem passes_valueStart (q' : HttpParser) (ch : Byte) (hs : q.state = .headerValueDiscardWs)
    (hch : isText ch = true) (hspace : isSpace ch = false)
    (hstart : headerValueStart q ch = advance q' [.mark .headerValue]) :
    Passes (within m q) [ch] (within m q') := by
  refine passes_within m q q' ch [.mark .headerValue] none ?_
  rw [coreStep_shared m q ch (by rw [hs]; rfl), byteStep_discardWs q ch hs hch hspace]
  exact hstart

/-- One more byte of a value. -/
theorem passes_valueChar (q' : HttpParser) (ch : Byte) (skip : Option Nat)
    (hs : q.state = .headerValue) (hch : isText ch = true)
    (hchar : headerValueChar q ch = ⟨q', [], .next, skip⟩) :
    Passes (within m q) [ch] (within m q') := by
  refine passes_within m q q' ch [] skip ?_
  rw [coreStep_shared m q ch (by rw [hs]; rfl), byteStep_headerValue q ch hs hch]
  exact hchar

/-- A parser within a value, as far as its manners go. -/
def Mannered (v : Manners) (quiet : Prop) (q : HttpParser) : Prop :=
  quiet → manners q = v ∧ connectionValue q.headerState = false

/-- A value that does not frame the message. -/
theorem passes_plain (v : Manners) (quiet : Prop) (ch : Byte) (more : Bytes)
    (hs : q.state = .headerValueDiscardWs) (hquiet : framingValue q.headerState = false)
    (hv : Mannered v quiet q) (hch : isText ch = true) (hspace : isSpace ch = false)
    (hmore : more.all isText = true) :
    ∃ q', Passes (within m q) (ch :: more) (within m q') ∧ q'.state = .headerValue ∧
      facts q' = facts q ∧ framingValue q'.headerState = false ∧ Mannered v quiet q' := by
  rcases headerValueStart_quiet q ch hquiet with ⟨p, hstart, hstate, hfacts, hframing⟩
  have hp : Mannered v quiet p := by
    intro hq
    rcases hv hq with ⟨hmanners, haside⟩
    have hkept := headerValueStart_aside q ch haside
    rw [hstart] at hkept
    exact ⟨hkept.1.trans hmanners, hkept.2⟩
  have hchar : ∀ (part : Bytes) (p : HttpParser) (ch : Byte),
      (p.state = .headerValue ∧ facts p = facts q ∧ framingValue p.headerState = false ∧
        Mannered v quiet p) → isText ch = true → ∃ p', Passes (within m p) [ch] (within m p') ∧
        (p'.state = .headerValue ∧ facts p' = facts q ∧ framingValue p'.headerState = false ∧
          Mannered v quiet p') := by
    rintro part p ch ⟨hs, hf, hquiet, hv⟩ hch
    rcases headerValueChar_quiet p ch hquiet with ⟨p', skip, hchar, hstate, hfacts, hquiet'⟩
    refine ⟨p', passes_valueChar m p p' ch skip hs hch hchar, hstate.trans hs, hfacts.trans hf,
      hquiet', fun hq => ?_⟩
    rcases hv hq with ⟨hmanners, haside⟩
    have hkept := headerValueChar_aside p ch haside
    rw [hchar] at hkept
    exact ⟨hkept.1.trans hmanners, hkept.2⟩
  rcases passes_loop (within m) _ isText hchar more [] p ⟨hstate, hfacts, hframing, hp⟩ hmore with
    ⟨q', hrest, hq'⟩
  exact ⟨q', passes_append _ _ _ [ch] more (passes_valueStart m q p ch hs hch hspace hstart) hrest,
    hq'⟩

/-- The digits of a length after the first. -/
theorem passes_digits (digits : Bytes) (hq : InLength q) (hdigits : digits.all isDigit = true)
    (hfits : digits = [] ∨ numeral 10 digit q.contentLength digits / 10 ≤ lengthLimit) :
    Passes (within m q) digits
      (within m { q with contentLength := numeral 10 digit q.contentLength digits }) := by
  induction digits generalizing q with
  | nil => exact passes_nil _
  | cons ch digits ih =>
      rw [List.all_cons, Bool.and_eq_true] at hdigits
      have hlast := hfits.resolve_left (List.cons_ne_nil ch digits)
      have hlimit := Nat.le_trans
        (le_numeral_div 10 digit (by decide) ch digits q.contentLength) hlast
      have hone : Passes (within m q) [ch]
          (within m { q with contentLength := q.contentLength * 10 + digit ch }) := by
        refine passes_valueChar m q _ ch none hq.1 (text_of_digit ch hdigits.1) ?_
        rw [inLength_char q ch hq hdigits.1, if_neg (Nat.not_lt.mpr hlimit)]
        rfl
      exact passes_append _ _ _ [ch] digits hone
        (ih { q with contentLength := q.contentLength * 10 + digit ch } hq hdigits.2 (Or.inr hlast))

/-- The spaces after a length. -/
theorem passes_lengthTrail (trail : Bytes) (hq : InLength q)
    (htrail : trail.all (· == SP) = true) : Passes (within m q) trail (within m q) := by
  have hspace : ∀ (part : Bytes) (p : HttpParser) (ch : Byte), p = q → (ch == SP) = true →
      ∃ p', Passes (within m p) [ch] (within m p') ∧ p' = q := by
    rintro part p ch rfl hch
    rw [beq_iff_eq] at hch
    refine ⟨p, passes_valueChar m p p ch none hq.1 (by rw [hch]; decide +kernel) ?_, rfl⟩
    unfold headerValueChar
    rw [hq.2.1, hch]
    rfl
  rcases passes_loop (within m) (fun _ p => p = q) (· == SP) hspace trail [] q rfl htrail with
    ⟨p, hpass, rfl⟩
  exact hpass

/-- The value of a length and the spaces after it. -/
theorem passes_length (ch : Byte) (more trail : Bytes) (hok : q.httpErrno = .ok)
    (hs : q.state = .headerValueDiscardWs) (hq : q.headerState = .contentLength)
    (hsized : q.flags.contentLength = false) (hvalue : (ch :: more).all isDigit = true)
    (hfits : decimal (ch :: more) / 10 ≤ lengthLimit) (htrail : trail.all (· == SP) = true) :
    ∃ q', Passes (within m q) (ch :: (more ++ trail)) (within m q') ∧ InLength q' ∧
      facts q' = { facts q with sized := true, length := decimal (ch :: more) } ∧
      manners q' = manners q := by
  rw [List.all_cons, Bool.and_eq_true] at hvalue
  have hspace : isSpace ch = false := by
    have hall := byte_forall (fun ch => !isDigit ch || !isSpace ch) (by decide +kernel) ch
    simpa only [hvalue.1, Bool.not_true, Bool.false_or, Bool.not_eq_true'] using hall
  have hfirst : ∃ p, headerValueStart q ch = advance p [.mark .headerValue] ∧ InLength p ∧
      p.contentLength = digit ch ∧
      facts p = { facts q with sized := true, length := digit ch } ∧ manners p = manners q := by
    unfold headerValueStart
    rw [hq]
    dsimp only
    rw [isNum_eq, hvalue.1, hsized]
    exact ⟨_, rfl, ⟨rfl, rfl, hok⟩, rfl, rfl, rfl⟩
  rcases hfirst with ⟨p, hstart, hp, hlength, hfacts, hmanners⟩
  have hdecimal : decimal (ch :: more) = numeral 10 digit p.contentLength more := by
    rw [hlength]
    change numeral 10 digit (0 * 10 + digit ch) more = _
    rw [Nat.zero_mul, Nat.zero_add]
  have hdigits := passes_digits m p more hp hvalue.2 (Or.inr (hdecimal ▸ hfits))
  have hspaces := passes_lengthTrail m
    { p with contentLength := numeral 10 digit p.contentLength more } trail hp htrail
  refine ⟨{ p with contentLength := numeral 10 digit p.contentLength more }, ?_, hp, ?_, hmanners⟩
  · exact passes_append _ _ _ [ch] _
      (passes_valueStart m q p ch hs (text_of_digit ch hvalue.1) hspace hstart)
      (passes_append _ _ _ more trail hdigits hspaces)
  · rw [hdecimal]
    exact congrArg (fun g : Facts =>
      { g with length := numeral 10 digit p.contentLength more }) hfacts

/-- A line that ends after a value. -/
theorem passes_lineEnd (q' : HttpParser) (data : Bytes) (v : Manners) (quiet : Prop) (g : Facts)
    (hpass : Passes (within m q) data (within m q')) (hs : q'.state = .headerValue)
    (hg : { facts q' with
      chunked := q'.flags.chunked || decide (q'.headerState = .transferEncodingChunked) } = g)
    (hv : Mannered v quiet q') :
    ∃ q'', Passes (within m q) (data ++ CRLF) (within m q'') ∧ Stands q'' g ∧
      (quiet → manners (lineStart q'') = v) := by
  refine ⟨{ q' with state := .headerValueLws },
    passes_append _ _ _ data CRLF hpass (passes_valueEnd m q' hs),
    stands_later q' _ g (Or.inl rfl) hg, fun hq => ?_⟩
  rcases hv hq with ⟨hmanners, haside⟩
  exact (lineStart_manners { q' with state := .headerValueLws } haside).trans hmanners

/-- The value of a field that is no transfer coding, and the end of its
    line. -/
theorem passes_rest (v : Manners) (quiet : Prop) (hok : f.errno = .ok) (h : Named fd f q)
    (hv : Mannered v quiet q) (hnumber : OneNumber f fd) (hte : fd.isTransferEncoding = false)
    (hread : readable fd = true) :
    ∃ q', Passes (within m q) (fd.rest ++ CRLF) (within m q') ∧ Stands q' (f.after fd) ∧
      (quiet → manners (lineStart q') = v) := by
  have herr := named_errno q fd f h hok
  have hnot : q.headerState ≠ .transferEncodingChunked := by
    intro hs
    exact absurd ((congrArg codingValue hs).symm.trans h.value) (Bool.false_ne_true).symm
  cases hvalue : fd.value with
  | nil =>
      have htrail : fd.trail = [] := List.isEmpty_iff.mp (fd.empty (by rw [hvalue]; rfl))
      have hrest : fd.rest = [] := by
        rw [Field.rest, hvalue, htrail]
        rfl
      have hcl : fd.isContentLength = false := by
        rw [← Bool.not_eq_true]
        intro hcl
        have hne := (hnumber hcl).2.1
        rw [hvalue] at hne
        exact absurd hne.symm Bool.false_ne_true
      rw [hrest]
      refine ⟨{ q with state := .headerValueDiscardLws }, passes_emptyEnd m q h.state,
        stands_later q _ _ (Or.inr rfl) ?_, fun hq => ?_⟩
      · unfold Facts.after
        rw [hte, hcl, if_neg Bool.false_ne_true, if_neg Bool.false_ne_true, ← h.facts]
        simp only [hnot, decide_false, Bool.or_false]
        rfl
      · rcases hv hq with ⟨hmanners, haside⟩
        exact (lineStart_manners { q with state := .headerValueDiscardLws } haside).trans hmanners
  | cons ch more =>
      have hrest : fd.rest = ch :: (more ++ fd.trail) := by
        rw [Field.rest, hvalue]
        rfl
      have htext := rest_text fd
      have hspace := fd.first
      rw [hvalue] at hspace
      rw [hrest, List.all_cons, Bool.and_eq_true] at htext
      rw [hrest]
      cases hcl : fd.isContentLength with
      | true =>
          rcases hnumber hcl with ⟨hsized, _, hdigits⟩
          rw [readable, hcl, hvalue, Bool.not_true, Bool.false_or, Bool.and_eq_true,
            decide_eq_true_eq] at hread
          rw [hvalue] at hdigits
          rcases passes_length m q ch more fd.trail herr h.state (h.length.mpr hcl)
            ((congrArg Facts.sized h.facts).trans hsized) hdigits hread.1 hread.2 with
            ⟨q', hpass, hin, hfacts, hmanners⟩
          refine passes_lineEnd m q q' _ v quiet _ hpass hin.1 ?_ fun hq => ⟨?_, ?_⟩
          · unfold Facts.after
            rw [hte, hcl, if_neg Bool.false_ne_true, if_pos rfl, hvalue, hin.2.1, hfacts, ← h.facts,
              show q'.flags.chunked = q.flags.chunked from congrArg Facts.chunked hfacts]
            simp only [reduceCtorEq, decide_false, Bool.or_false]
            rfl
          · exact hmanners.trans (hv hq).1
          · rw [hin.2.1]
            rfl
      | false =>
          -- The name is neither of the words that frame a message.
          have hquiet : framingValue q.headerState = false := by
            have hvalue := h.value
            cases hs : q.headerState with
            | contentLength =>
                exact absurd ((h.length.mp hs).symm.trans hcl) (Bool.false_ne_true).symm
            | transferEncoding =>
                exact absurd ((h.coding.mp hs).symm.trans hte) (Bool.false_ne_true).symm
            | matchingTransferEncodingChunked | transferEncodingChunked =>
                rw [hs] at hvalue
                exact absurd hvalue.symm Bool.false_ne_true
            | _ => rfl
          rcases passes_plain m q v quiet ch _ h.state hquiet hv htext.1 hspace htext.2 with
            ⟨q', hpass, hstate, hfacts, hquiet', hv'⟩
          have hnot' : q'.headerState ≠ .transferEncodingChunked := by
            intro hs
            exact absurd ((congrArg framingValue hs).symm.trans hquiet') (Bool.false_ne_true).symm
          refine passes_lineEnd m q q' _ v quiet _ hpass hstate ?_ hv'
          unfold Facts.after
          rw [hte, hcl, if_neg Bool.false_ne_true, if_neg Bool.false_ne_true, ← h.facts]
          simp only [hnot', decide_false, Bool.or_false]
          exact hfacts

/-- A field. -/
theorem passes_field (hok : f.errno = .ok) (h : Stands q f) (hnumber : OneNumber f fd)
    (hte : fd.isTransferEncoding = false) (hread : readable fd = true) :
    ∃ q', Passes (within m q) fd.bytes (within m q') ∧ Stands q' (f.after fd) ∧
      (fd.isConnection = false → manners (lineStart q') = manners (lineStart q)) := by
  have herr : q.httpErrno = .ok := (stands_errno q f h).trans hok
  rcases passes_name m q fd h.line herr with ⟨p, hname, hp, hmanners, haside⟩
  rw [h.facts] at hp
  have hblank := fd.blank
  rw [List.all_append, Bool.and_eq_true] at hblank
  have hlead := passes_lead m p fd.lead hp.state hblank.1
  rcases passes_rest m p fd f (manners (lineStart q)) (fd.isConnection = false) hok hp
    (fun hno => ⟨hmanners, haside hno⟩) hnumber hte hread with ⟨q', hrest, hstands, hquiet⟩
  refine ⟨q', ?_, hstands, hquiet⟩
  rw [Field.bytes, List.append_assoc _ fd.rest CRLF]
  exact passes_append _ _ _ _ _ (passes_append _ _ _ _ _ hname hlead) hrest

/-- Fields. -/
theorem passes_fields (fields : List Field) (hok : f.errno = .ok) (h : Stands q f)
    (hlengths : OneLength f fields) (hte : fields.any Field.isTransferEncoding = false)
    (hread : fields.all readable = true) :
    ∃ q', Passes (within m q) (fields.flatMap Field.bytes) (within m q') ∧
      Stands q' (fields.foldl Facts.after f) ∧
      (fields.any Field.isConnection = false → manners (lineStart q') = manners (lineStart q)) := by
  induction fields generalizing q f with
  | nil => exact ⟨q, passes_nil _, h, fun _ => rfl⟩
  | cons fd fields ih =>
      rw [List.any_cons, Bool.or_eq_false_iff] at hte
      rw [List.all_cons, Bool.and_eq_true] at hread
      rcases passes_field m q fd f hok h (oneLength_first fd f fields hlengths) hte.1 hread.1 with
        ⟨q1, hfirst, hstands, hquiet⟩
      rcases ih q1 (f.after fd) ((after_errno f fd).trans hok) hstands
        (oneLength_rest fd f fields hlengths) hte.2 hread.2 with ⟨q2, hrest, hstands', hquiet'⟩
      refine ⟨q2, passes_append _ _ _ _ _ hfirst hrest, hstands', fun hno => ?_⟩
      rw [List.any_cons, Bool.or_eq_false_iff] at hno
      exact (hquiet' hno.2).trans (hquiet hno.1)

end Request

end HttpParser

end Wrk

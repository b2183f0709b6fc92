import Wrk.Http.Response
import Wrk.Script.Format

/-!
# The Head of a Formatted Request

What frames the requests that `wrk.format` returns: a host, and the length of
the body if there is one. Names of headers are compared without regard to
case, but the keys of a table are not, and `wrk.format` looks for the two names
under one spelling each. A table may hold others.

A reader of the text goes by lines. The name of a field ends at the first
colon, which a key of the table may contain.

## Main definitions

* `framed`: The head of a text has one host, and the length of what follows it
  if there is a body.
* `otherNames`: Other spellings of a name in a table.
* `SpelledOnce`: No other spelling gets into the head.

## Theorems

* `formatted_splits`: The text is taken apart into its lines and body.
* `printed_names`: How many lines have a name.
* `framed_iff`: The tables with which a request is framed.
* `init_hosted`: After `wrk.init` there is a host.
-/

namespace Wrk

namespace Script

open HttpParser (Bytes bytes)

open Http (lowerCase isSpace COLON)

/-! ### Reading a head -/

/-- The name of a field, in lower case. -/
def fieldName (line : Bytes) : Bytes := (line.takeWhile (· ≠ COLON)).map lowerCase

/-- Its value, without the white space before it. -/
def fieldValue (line : Bytes) : Bytes := (line.dropWhile (· ≠ COLON)).tail.dropWhile isSpace

def isNamed (word line : Bytes) : Bool := fieldName line == word

/-- The names that frame requests, in lower case. -/
def hostWord : Bytes := bytes "host"

def lengthWord : Bytes := bytes "content-length"

/-- Exactly one field of the head is the host. If there is a body, exactly one
    is a length, that of what follows the first empty line. Otherwise none
    is. -/
def framed (given : Bool) (text : Bytes) : Bool :=
  match Lines.splitHead text.length text with
  | some (_ :: fields, body) =>
      (fields.filter (isNamed hostWord)).length == 1 &&
        ((fields.filter (isNamed lengthWord)).map fieldValue ==
          if given then [Decimal.natText body.length] else [])
  | _ => false

section Head

variable {N R : Type} [DecidableEq N] [Number N] [DecidableEq R]

/-- A text without ends of lines. -/
def OneLine (text : Bytes) : Prop := 13 ∉ text ∧ 10 ∉ text

/-- A table whose names and values are such texts. -/
def Clear (t : Headers N) : Prop := ∀ e ∈ t.entries, OneLine e.1.text ∧ OneLine e.2.text

/-- The names of a table that a reader takes for a name, besides one. -/
def otherNames (word : Bytes) (name : Scalar N) (t : Headers N) : List (Scalar N) :=
  t.keys.filter (fun k => decide (k ≠ name) && isNamed word k.text)

/-- No other spelling of the length is in the table of a call. As for the
    host, there is no other spelling if it is known under its own, and exactly
    one otherwise. -/
def SpelledOnce (heap : R → Headers N) (defaults headers : R) : Prop :=
  otherNames lengthWord CONTENT_LENGTH (heap headers) = [] ∧
    (otherNames hostWord HOST (heap headers)).length +
      (if (hostOf heap defaults headers).isSome then 1 else 0) = 1

/-! ### The lines -/

omit [DecidableEq N] in
theorem fieldName_headerLine (e : Scalar N × Scalar N) :
    fieldName (headerLine e) = fieldName e.1.text := by
  -- The colon of the line comes after all those of the name.
  have hcolon : ∀ rest : Bytes,
      (e.1.text ++ (COLON :: rest)).takeWhile (· ≠ COLON) = e.1.text.takeWhile (· ≠ COLON) := by
    intro rest
    induction e.1.text with
    | nil => rfl
    | cons b text ih =>
        rw [List.cons_append, List.takeWhile_cons, List.takeWhile_cons, ih]
  unfold fieldName headerLine
  rw [List.append_assoc]
  exact congrArg (List.map lowerCase) (hcolon _)

/-- The text of a request as lines and what follows the empty one. -/
theorem text_eq_lines (r : Formatted) :
    r.text = (r.line :: r.headers).flatMap (fun l => l ++ Lines.endOfLine) ++ Lines.endOfLine ++
      r.body := by
  unfold Formatted.text
  generalize r.line = line
  induction r.headers generalizing line with
  | nil =>
      simp only [List.nil_append, List.intercalate_cons_cons, List.intercalate_singleton,
        List.flatMap_cons, List.flatMap_nil, List.append_nil, List.append_assoc]
  | cons l ls ih =>
      rw [List.cons_append, List.intercalate_cons_cons, ih l]
      simp only [List.flatMap_cons, List.append_assoc]

theorem oneLine_append (a b : Bytes) (ha : OneLine a) (hb : OneLine b) : OneLine (a ++ b) := by
  refine ⟨?_, ?_⟩
  · rw [List.mem_append, not_or]
    exact ⟨ha.1, hb.1⟩
  · rw [List.mem_append, not_or]
    exact ⟨ha.2, hb.2⟩

theorem oneLine_natText (n : Nat) : OneLine (Decimal.natText n) :=
  ⟨fun h => absurd (Decimal.natText_digits n 13 h) (by decide),
    fun h => absurd (Decimal.natText_digits n 10 h) (by decide)⟩

/-- The table that is printed is as clear as those it comes from. -/
theorem format_clear (pairs : Pairs N) (wrk : Fields R) (args : Args R) (heap : R → Headers N)
    (hd : Clear (heap wrk.headers)) (hh : Clear (heap (args.headers.getD wrk.headers))) :
    Clear ((format pairs wrk args heap).2 (args.headers.getD wrk.headers)) := by
  intro e he
  have hmem := AList.mem_lookup_iff.mpr he
  rw [format_lookup] at hmem
  simp only [true_and] at hmem
  have hold : ∀ (t : Headers N) (name value : Scalar N), Clear t → value ∈ t.lookup name →
      OneLine name.text ∧ OneLine value.text :=
    fun t name value ht hv => ht ⟨name, value⟩ (AList.mem_lookup_iff.mp hv)
  -- An entry is the length, the host, or one that was there before.
  by_cases hlen : e.1 = CONTENT_LENGTH
  · rw [if_pos hlen] at hmem
    rcases Option.map_eq_some_iff.mp hmem with ⟨text, _, hvalue⟩
    refine ⟨?_, ?_⟩
    · rw [hlen]
      change OneLine (bytes "Content-Length")
      exact ⟨by decide +kernel, by decide +kernel⟩
    · rw [← hvalue]
      change OneLine (Number.text (Number.ofNat text.length : N))
      rw [Number.text_ofNat]
      exact oneLine_natText _
  · rw [if_neg hlen] at hmem
    by_cases hhost : e.1 = HOST
    · rw [if_pos hhost] at hmem
      unfold hostOf at hmem
      rw [hhost]
      split_ifs at hmem
      · exact hold _ _ _ hh hmem
      · exact hold _ _ _ hd hmem
    · rw [if_neg hhost] at hmem
      exact hold _ _ _ hh hmem

/-- The text of a request is taken apart into its lines and its body. -/
theorem formatted_splits (pairs : Pairs N) (wrk : Fields R) (args : Args R) (heap : R → Headers N)
    (hmethod : OneLine (args.method.getD wrk.method)) (hpath : OneLine (args.path.getD wrk.path))
    (hd : Clear (heap wrk.headers)) (hh : Clear (heap (args.headers.getD wrk.headers))) :
    Lines.splitHead (format pairs wrk args heap).1.text.length (format pairs wrk args heap).1.text =
      some ((format pairs wrk args heap).1.line :: (format pairs wrk args heap).1.headers,
        (format pairs wrk args heap).1.body) := by
  rw [text_eq_lines]
  generalize hr : (format pairs wrk args heap).1 = r
  have hlen : (r.line :: r.headers).length ≤
      ((r.line :: r.headers).flatMap (fun l => l ++ Lines.endOfLine)).length :=
    Lines.length_le_lines _
  refine Lines.splitHead_lines _ _ _ (fun l hl => ?_) ?_
  · -- Neither the request line nor a header line is empty or has an end of line in it.
    rcases List.mem_cons.mp hl with hl | hl
    · rw [hl, ← hr]
      refine ⟨?_, ?_⟩
      · exact List.append_ne_nil_of_right_ne_nil _ (by decide)
      · exact (oneLine_append _ _ (oneLine_append _ _ (oneLine_append _ _ hmethod
          ⟨by decide +kernel, by decide +kernel⟩) hpath) ⟨by decide +kernel, by decide +kernel⟩).1
    · rw [← hr, format_headers] at hl
      rcases List.mem_map.mp hl with ⟨e, he, hline⟩
      have hentry := (pairs.perm _).mem_iff.mp he
      rcases List.mem_map.mp hentry with ⟨entry, hmem, rfl⟩
      rcases format_clear pairs wrk args heap hd hh entry hmem with ⟨hname, hvalue⟩
      rw [← hline]
      refine ⟨?_, ?_⟩
      · refine List.append_ne_nil_of_left_ne_nil ?_ _
        exact List.append_ne_nil_of_right_ne_nil _ (by decide)
      · exact (oneLine_append _ _
          (oneLine_append _ _ hname ⟨by decide +kernel, by decide +kernel⟩) hvalue).1
  · rw [List.length_append, List.length_append]
    have hend : Lines.endOfLine.length = 2 := rfl
    omega

/-! ### The names -/

omit [DecidableEq N] in
/-- The lines of a table with a name are those of its entries with that
    name. -/
theorem lines_named (word : Bytes) (es : List (Scalar N × Scalar N)) :
    (es.map headerLine).filter (isNamed word) =
      (es.filter (fun e => isNamed word e.1.text)).map headerLine := by
  rw [List.filter_map]
  congr 1
  refine List.filter_congr (fun e _ => ?_)
  unfold isNamed
  rw [Function.comp_apply, fieldName_headerLine]

omit [DecidableEq N] in
/-- As many as there are such names among its keys. -/
theorem visit_named (pairs : Pairs N) (word : Bytes) (t : Headers N) :
    ((pairs.visit t).filter (fun e => isNamed word e.1.text)).length =
      (t.keys.filter (fun k => isNamed word k.text)).length := by
  rw [((pairs.perm t).filter _).length_eq]
  unfold AList.keys List.keys
  rw [List.filter_map, List.filter_map, List.length_map, List.length_map]
  rfl

omit [Number N] in
theorem mem_keys_iff (t : Headers N) (k : Scalar N) : k ∈ t.keys ↔ (t.lookup k).isSome = true := by
  rw [AList.lookup_isSome, AList.mem_keys]

/-- The keys with one of the two names, in the table that is printed: the
    other spellings of the table of the call, and the one that is set. -/
theorem printed_keys (pairs : Pairs N) (wrk : Fields R) (args : Args R) (heap : R → Headers N)
    (word : Bytes) (name : Scalar N) (hword : isNamed word name.text = true)
    (hother : ∀ k : Scalar N, k ≠ name → isNamed word k.text = true →
      k ≠ CONTENT_LENGTH ∧ k ≠ HOST) (printed : Headers N)
    (hprinted : printed = (format pairs wrk args heap).2 (args.headers.getD wrk.headers)) :
    (printed.keys.filter (fun k => isNamed word k.text)).Perm
      (otherNames word name (heap (args.headers.getD wrk.headers)) ++
        if (printed.lookup name).isSome then [name] else []) := by
  have hone : name ∉ otherNames word name (heap (args.headers.getD wrk.headers)) := by
    intro h
    have hne := (List.mem_filter.mp h).2
    rw [decide_eq_false (fun hn => hn rfl)] at hne
    exact Bool.false_ne_true hne
  -- Both sides have no key twice, so it is enough to compare their members.
  have hnodup : (otherNames word name (heap (args.headers.getD wrk.headers)) ++
      if (printed.lookup name).isSome then [name] else []).Nodup := by
    refine List.Nodup.append ((AList.keys_nodup _).filter _) ?_ ?_
    · split_ifs
      · exact List.nodup_singleton _
      · exact List.nodup_nil
    · intro k hk hin
      split_ifs at hin
      · rw [List.mem_singleton.mp hin] at hk
        exact hone hk
      · exact absurd hin List.not_mem_nil
  refine (List.perm_ext_iff_of_nodup ((AList.keys_nodup _).filter _) hnodup).mpr (fun k => ?_)
  rw [List.mem_filter, mem_keys_iff, List.mem_append]
  by_cases hk : k = name
  · subst hk
    have hif : k ∈ (if (printed.lookup k).isSome then [k] else []) ↔
        (printed.lookup k).isSome = true := by
      split_ifs with hs
      · exact iff_of_true (List.mem_singleton.mpr rfl) hs
      · exact iff_of_false List.not_mem_nil hs
    rw [hif]
    exact ⟨fun h => Or.inr h.1, fun h => ⟨h.resolve_left hone, hword⟩⟩
  · have hif : k ∉ (if (printed.lookup name).isSome then [name] else []) := by
      split_ifs
      · exact fun h => hk (List.mem_singleton.mp h)
      · exact List.not_mem_nil
    -- A key that is not set is there if it was there.
    have hsame : isNamed word k.text = true →
        ((printed.lookup k).isSome = true ↔ k ∈ (heap (args.headers.getD wrk.headers)).keys) := by
      intro hnamed
      rcases hother k hk hnamed with ⟨hlen, hhost⟩
      rw [hprinted, format_lookup, if_neg (fun h => hlen h.2), if_neg (fun h => hhost h.2),
        mem_keys_iff]
    unfold otherNames
    rw [List.mem_filter, decide_eq_true hk, Bool.true_and]
    constructor
    · intro h
      exact Or.inl ⟨(hsame h.2).mp h.1, h.2⟩
    · intro h
      have hin := h.resolve_right hif
      exact ⟨(hsame hin.2).mpr hin.1, hin.2⟩

omit [DecidableEq N] in
theorem host_named : isNamed hostWord (HOST : Scalar N).text = true := by
  change isNamed hostWord (bytes "Host") = true
  decide +kernel

omit [DecidableEq N] in
theorem length_named : isNamed lengthWord (CONTENT_LENGTH : Scalar N).text = true := by
  change isNamed lengthWord (bytes "Content-Length") = true
  decide +kernel

omit [DecidableEq N] in
/-- No key has both names. -/
theorem words_differ (k : Scalar N) (hhost : isNamed hostWord k.text = true)
    (hlen : isNamed lengthWord k.text = true) : False := by
  have heq : hostWord = lengthWord := (eq_of_beq hhost).symm.trans (eq_of_beq hlen)
  exact absurd heq (by decide +kernel)

theorem printed_host (pairs : Pairs N) (wrk : Fields R) (args : Args R) (heap : R → Headers N) :
    ((format pairs wrk args heap).2 (args.headers.getD wrk.headers)).lookup HOST =
      hostOf heap wrk.headers (args.headers.getD wrk.headers) := by
  rw [format_lookup, if_neg (fun h => host_ne_length h.2), if_pos ⟨rfl, rfl⟩]

theorem printed_length (pairs : Pairs N) (wrk : Fields R) (args : Args R) (heap : R → Headers N) :
    ((format pairs wrk args heap).2 (args.headers.getD wrk.headers)).lookup CONTENT_LENGTH =
      lengthOf (args.body.or wrk.body) := by
  rw [format_lookup, if_pos ⟨rfl, rfl⟩]

/-- How many lines have a name: the other spellings, and the one that is set
    if it is. -/
theorem printed_names (pairs : Pairs N) (wrk : Fields R) (args : Args R) (heap : R → Headers N)
    (word : Bytes) (name : Scalar N) (hword : isNamed word name.text = true)
    (hother : ∀ k : Scalar N, k ≠ name → isNamed word k.text = true →
      k ≠ CONTENT_LENGTH ∧ k ≠ HOST) :
    ((format pairs wrk args heap).1.headers.filter (isNamed word)).length =
      (otherNames word name (heap (args.headers.getD wrk.headers))).length +
        if (((format pairs wrk args heap).2 (args.headers.getD wrk.headers)).lookup name).isSome
          then 1 else 0 := by
  have hkeys := printed_keys pairs wrk args heap word name hword hother _ rfl
  rw [format_headers, lines_named, List.length_map, visit_named, hkeys.length_eq,
    List.length_append]
  split_ifs <;> rfl

theorem printed_hosts (pairs : Pairs N) (wrk : Fields R) (args : Args R) (heap : R → Headers N) :
    ((format pairs wrk args heap).1.headers.filter (isNamed hostWord)).length =
      (otherNames hostWord HOST (heap (args.headers.getD wrk.headers))).length +
        if (hostOf heap wrk.headers (args.headers.getD wrk.headers)).isSome then 1 else 0 := by
  rw [← printed_host pairs wrk args heap]
  refine printed_names pairs wrk args heap hostWord HOST host_named (fun k hk hnamed => ?_)
  refine ⟨fun hlen => words_differ k hnamed ?_, hk⟩
  rw [hlen]
  exact length_named

theorem printed_lengths (pairs : Pairs N) (wrk : Fields R) (args : Args R) (heap : R → Headers N) :
    ((format pairs wrk args heap).1.headers.filter (isNamed lengthWord)).length =
      (otherNames lengthWord CONTENT_LENGTH (heap (args.headers.getD wrk.headers))).length +
        if (args.body.or wrk.body).isSome then 1 else 0 := by
  have hlen := printed_length pairs wrk args heap
  have hcount := printed_names pairs wrk args heap lengthWord CONTENT_LENGTH length_named
    (fun k hk hnamed => ⟨hk, fun hhost => words_differ k (by rw [hhost]; exact host_named) hnamed⟩)
  -- The length is set if and only if there is a body.
  rw [hcount, hlen, lengthOf, Option.isSome_map]

omit [DecidableEq N] in
/-- The value of the line that gives a length. -/
theorem fieldValue_length (n : Nat) :
    fieldValue (headerLine (CONTENT_LENGTH, (.number (Number.ofNat n) : Scalar N))) =
      Decimal.natText n := by
  have hline : headerLine (CONTENT_LENGTH, (.number (Number.ofNat n) : Scalar N)) =
      bytes "Content-Length: " ++ Decimal.natText n := by
    change bytes "Content-Length" ++ bytes ": " ++ Number.text (Number.ofNat n : N) = _
    rw [Number.text_ofNat]
    rfl
  -- No white space stands among digits, so nothing more is taken off.
  have hdigit : ∀ b ∈ Decimal.natText n, isSpace b = false := by
    intro b hb
    have hd := Decimal.natText_digits n b hb
    have hall : Decimal.digitBytes.all (fun b => !isSpace b) = true := by decide +kernel
    simpa using List.all_eq_true.mp hall b hd
  rw [hline]
  change (Decimal.natText n).dropWhile isSpace = Decimal.natText n
  cases htext : Decimal.natText n with
  | nil => rfl
  | cons b rest =>
      rw [List.dropWhile_cons, if_neg]
      rw [hdigit b (by rw [htext]; exact List.mem_cons_self)]
      exact Bool.false_ne_true

/-- The length is printed if there is a body. -/
theorem length_visited (pairs : Pairs N) (wrk : Fields R) (args : Args R) (heap : R → Headers N)
    (text : Bytes) (hbody : args.body.or wrk.body = some text) :
    (CONTENT_LENGTH, (.number (Number.ofNat text.length) : Scalar N)) ∈
      pairs.visit ((format pairs wrk args heap).2 (args.headers.getD wrk.headers)) := by
  have hlen := printed_length pairs wrk args heap
  rw [hbody] at hlen
  have hentry := AList.mem_lookup_iff.mp hlen
  exact (pairs.perm _).mem_iff.mpr (List.mem_map.mpr ⟨_, hentry, rfl⟩)

/-- The right length is given, and no other, if there is no other spelling. -/
theorem printed_values (pairs : Pairs N) (wrk : Fields R) (args : Args R) (heap : R → Headers N) :
    ((format pairs wrk args heap).1.headers.filter (isNamed lengthWord)).map fieldValue =
        (if (args.body.or wrk.body).isSome then
          [Decimal.natText ((args.body.or wrk.body).getD []).length] else []) ↔
      otherNames lengthWord CONTENT_LENGTH (heap (args.headers.getD wrk.headers)) = [] := by
  have hcount := printed_lengths pairs wrk args heap
  rw [← List.length_eq_zero_iff (l := otherNames _ _ _)]
  cases hbody : args.body.or wrk.body with
  | none =>
      rw [hbody, Option.isSome_none, if_neg Bool.false_ne_true] at hcount
      rw [Option.isSome_none, if_neg Bool.false_ne_true, List.map_eq_nil_iff,
        ← List.length_eq_zero_iff, hcount]
      rfl
  | some text =>
      rw [hbody, Option.isSome_some, if_pos rfl] at hcount
      rw [Option.isSome_some, if_pos rfl]
      constructor
      · intro h
        -- One value, and one line that is set: there is no other.
        have hone := congrArg List.length h
        rw [List.length_map, hcount, List.length_singleton] at hone
        omega
      · intro h
        rw [h] at hcount
        -- There is one line, and it is the one that is set.
        rw [format_headers, lines_named] at hcount ⊢
        rw [List.length_map] at hcount
        rcases List.length_eq_one_iff.mp hcount with ⟨e, he⟩
        have hmem := (List.mem_filter (p := fun e => isNamed lengthWord e.1.text)).mpr
          ⟨length_visited pairs wrk args heap text hbody, length_named⟩
        rw [he] at hmem
        rw [he, ← List.mem_singleton.mp hmem, List.map_singleton, List.map_singleton,
          fieldValue_length]
        rfl

/-- The head of a request that is formatted has exactly one host, and exactly
    one length if there is a body and none otherwise, if and only if no other
    spellings of the two names are in the way. -/
theorem framed_iff (pairs : Pairs N) (wrk : Fields R) (args : Args R) (heap : R → Headers N)
    (hmethod : OneLine (args.method.getD wrk.method)) (hpath : OneLine (args.path.getD wrk.path))
    (hd : Clear (heap wrk.headers)) (hh : Clear (heap (args.headers.getD wrk.headers))) :
    framed (args.body.or wrk.body).isSome (format pairs wrk args heap).1.text = true ↔
      SpelledOnce heap wrk.headers (args.headers.getD wrk.headers) := by
  unfold framed SpelledOnce
  rw [formatted_splits pairs wrk args heap hmethod hpath hd hh]
  dsimp only
  rw [Bool.and_eq_true, beq_iff_eq, beq_iff_eq, printed_hosts]
  -- The hosts are counted, the lengths compared; each decides one half.
  rw [and_comm]
  exact and_congr_left' (printed_values pairs wrk args heap)

/-- What `script_create` makes of an URL without a port or a path. -/
def plainFields : Fields Unit where
  host := bytes "localhost"
  port := none
  method := bytes "GET"
  path := bytes "/"
  headers := ()
  body := none

/-- The tables of a script without an `init` of its own, after `wrk.init`. The
    default table had these headers. -/
def tablesAfterInit (es : List (Bytes × Bytes)) : Unit → Headers Int :=
  (init (.latest Int) id plainFields (fun _ => es.foldl
    (fun t e => assign (.string e.1) (some (.string e.2)) t) ∅)).2.2

/-- A call with nothing but a body. -/
def bodyArgs (body : Option Bytes) : Args Unit := ⟨none, none, none, body⟩

theorem framed_iff_hi :
    (format (.latest Int) plainFields (bodyArgs (some (bytes "hi"))) (tablesAfterInit [])).1.text =
        bytes "GET / HTTP/1.1\r\nContent-Length: 2\r\nHost: localhost\r\n\r\nhi" ∧
      (framed true (format (.latest Int) plainFields (bodyArgs (some (bytes "hi")))
          (tablesAfterInit [])).1.text = true ↔
        SpelledOnce (tablesAfterInit []) () ()) := by
  have hclear : Clear (tablesAfterInit [] ()) := by
    unfold Clear OneLine
    decide +kernel
  have hget : OneLine (bytes "GET") := ⟨by decide +kernel, by decide +kernel⟩
  have hroot : OneLine (bytes "/") := ⟨by decide +kernel, by decide +kernel⟩
  exact ⟨by decide +kernel,
    framed_iff (.latest Int) plainFields (bodyArgs (some (bytes "hi"))) (tablesAfterInit []) hget
      hroot hclear hclear⟩

/-- With `-H "host: x"` there are two hosts, and with `-H "content-length: 0"`
    there is a length without a body. -/
theorem framed_other_spelling :
    (format (.latest Int) plainFields (bodyArgs none)
        (tablesAfterInit [(bytes "host", bytes "x")])).1.text =
        bytes "GET / HTTP/1.1\r\nHost: localhost\r\nhost: x\r\n\r\n" ∧
      framed false (format (.latest Int) plainFields (bodyArgs none)
        (tablesAfterInit [(bytes "host", bytes "x")])).1.text = false ∧
      framed false (format (.latest Int) plainFields (bodyArgs none)
        (tablesAfterInit [(bytes "content-length", bytes "0")])).1.text = false := by
  decide +kernel

omit [DecidableEq N] [Number N] in
theorem truthy_some (v : Option (Scalar N)) (h : truthy v = true) : v.isSome = true := by
  cases v with
  | none => exact absurd h Bool.false_ne_true
  | some v => rfl

/-- Without an `init` of the script's own, every table has a host after
    `wrk.init`. -/
theorem init_hosted (pairs : Pairs N) (wrk : Fields R) (heap : R → Headers N) (headers : R) :
    (hostOf (init pairs id wrk heap).2.2 wrk.headers headers).isSome = true := by
  -- The default table has a host before the request of `wrk.init` is formatted.
  have hset : ∃ heap', (init pairs id wrk heap).2.2 =
      (format pairs wrk ⟨none, none, none, none⟩ heap').2 ∧
        truthy ((heap' wrk.headers).lookup HOST) = true := by
    refine ⟨_, rfl, ?_⟩
    by_cases ht : truthy ((heap wrk.headers).lookup HOST) = true
    · rw [ht]
      exact ht
    · rw [Bool.eq_false_iff.mpr ht]
      change truthy ((store heap wrk.headers HOST _ wrk.headers).lookup HOST) = true
      rw [lookup_store, if_pos ⟨rfl, rfl⟩]
      rfl
  rcases hset with ⟨heap', hheap, ht⟩
  have hdefault : truthy (((init pairs id wrk heap).2.2 wrk.headers).lookup HOST) = true := by
    rw [hheap, format_lookup, if_neg (fun h => host_ne_length h.2), if_pos ⟨rfl, rfl⟩]
    unfold hostOf
    rw [Option.getD_none, if_pos ht]
    exact ht
  unfold hostOf
  split_ifs with h
  · exact truthy_some _ h
  · exact truthy_some _ hdefault

end Head

end Script

end Wrk

import Mathlib.Computability.RegularExpressions

/-!
# Searching with Regular Expressions

How the tools of a shell use a regular expression: they take the leftmost
match, and of those the longest, and a parenthesised part of the expression
takes as much of the match as it can.

Where a match begins and how far it goes is mostly decided by which symbols
can occur in it at all, and which can come first. Both are computed from the
expression.

## Main definitions

* `anyOf`, `word`, `opt`, `some1`: Expressions built from those there are.
* `symbols`, `firsts`: The symbols that occur in matches, and begin them.
* `longest`, `search`: The longest match at the start, and the leftmost one.
* `findAll`: All matches, from left to right.
* `split`: The division of a match between two parts of the expression.

## Theorems

* `mem_symbols`, `mem_firsts`: What matches are made of.
* `longest_eq`: A match is the longest if what follows cannot occur in one.
* `search_append`: A match does not begin where none can.
* `split_eq`: The division of a match.
-/

namespace Wrk

namespace Regex

open RegularExpression hiding star

variable {α : Type*}

/-- One of several symbols. -/
def anyOf : List α → RegularExpression α
  | [] => 0
  | a :: l => char a + anyOf l

/-- A word. -/
def word : List α → RegularExpression α
  | [] => 1
  | a :: l => char a * word l

/-- Perhaps. -/
def opt (r : RegularExpression α) : RegularExpression α := r + 1

/-- At least once. -/
def some1 (r : RegularExpression α) : RegularExpression α := r * r.star

theorem mem_anyOf (l : List α) (w : List α) :
    w ∈ (anyOf l).matches' ↔ ∃ a ∈ l, w = [a] := by
  induction l with
  | nil => exact ⟨fun h => absurd h (Set.notMem_empty w), fun ⟨_, h, _⟩ => absurd h List.not_mem_nil⟩
  | cons a l ih =>
      rw [anyOf, matches'_add, Language.mem_add, ih, matches'_char]
      simp only [List.mem_cons, exists_eq_or_imp]
      exact or_congr Iff.rfl Iff.rfl

theorem mem_word (l : List α) (w : List α) : w ∈ (word l).matches' ↔ w = l := by
  induction l generalizing w with
  | nil => exact Language.mem_one w
  | cons a l ih =>
      rw [word, matches'_mul, Language.mem_mul]
      constructor
      · rintro ⟨u, hu, v, hv, rfl⟩
        rw [(ih v).mp hv, show u = [a] from hu]
        rfl
      · intro hw
        exact ⟨[a], rfl, l, (ih l).mpr rfl, hw.symm⟩

theorem mem_star_anyOf (l : List α) (w : List α) :
    w ∈ (anyOf l).star.matches' ↔ ∀ a ∈ w, a ∈ l := by
  rw [matches'_star, Language.mem_kstar]
  constructor
  · rintro ⟨ws, rfl, hws⟩ a ha
    rcases List.mem_flatten.mp ha with ⟨u, hu, hau⟩
    rcases (mem_anyOf l u).mp (hws u hu) with ⟨b, hb, rfl⟩
    rwa [List.mem_singleton.mp hau]
  · intro h
    refine ⟨w.map (fun a => [a]), ?_, fun u hu => ?_⟩
    · induction w with
      | nil => rfl
      | cons a w ih =>
          rw [List.map_cons, List.flatten_cons, List.singleton_append,
            ← ih (fun b hb => h b (List.mem_cons_of_mem a hb))]
    · rcases List.mem_map.mp hu with ⟨a, ha, rfl⟩
      exact (mem_anyOf l [a]).mpr ⟨a, h a ha, rfl⟩

theorem mem_opt (r : RegularExpression α) (w : List α) :
    w ∈ (opt r).matches' ↔ w ∈ r.matches' ∨ w = [] := by
  rw [opt, matches'_add, Language.mem_add]
  exact or_congr Iff.rfl (Language.mem_one w)

theorem mem_some1_anyOf (l : List α) (w : List α) :
    w ∈ (some1 (anyOf l)).matches' ↔ w ≠ [] ∧ ∀ a ∈ w, a ∈ l := by
  rw [some1, matches'_mul, Language.mem_mul]
  constructor
  · rintro ⟨u, hu, v, hv, rfl⟩
    rcases (mem_anyOf l u).mp hu with ⟨a, ha, rfl⟩
    refine ⟨List.cons_ne_nil _ _, fun b hb => ?_⟩
    rcases List.mem_append.mp hb with hb | hb
    · rwa [List.mem_singleton.mp hb]
    · exact (mem_star_anyOf l v).mp hv b hb
  · rintro ⟨hne, h⟩
    cases w with
    | nil => exact absurd rfl hne
    | cons a w =>
        refine ⟨[a], (mem_anyOf l [a]).mpr ⟨a, h a List.mem_cons_self, rfl⟩, w, ?_, rfl⟩
        exact (mem_star_anyOf l w).mpr (fun b hb => h b (List.mem_cons_of_mem a hb))

/-! ### The symbols of a match -/

/-- The symbols that can occur in a match. -/
def symbols : RegularExpression α → List α
  | zero => []
  | epsilon => []
  | char a => [a]
  | plus r s => symbols r ++ symbols s
  | comp r s => symbols r ++ symbols s
  | .star r => symbols r

/-- The symbols that can begin a match. -/
def firsts : RegularExpression α → List α
  | zero => []
  | epsilon => []
  | char a => [a]
  | plus r s => firsts r ++ firsts s
  | comp r s => firsts r ++ if r.matchEpsilon then firsts s else []
  | .star r => firsts r

theorem mem_symbols (r : RegularExpression α) (w : List α) (h : w ∈ r.matches') (a : α)
    (ha : a ∈ w) : a ∈ symbols r := by
  induction r generalizing w with
  | zero => exact absurd h (Set.notMem_empty w)
  | epsilon =>
      rw [(Language.mem_one w).mp h] at ha
      exact absurd ha List.not_mem_nil
  | char b =>
      rw [show w = [b] from h] at ha
      exact ha
  | plus r s hr hs =>
      rcases h with h | h
      · exact List.mem_append_left _ (hr w h ha)
      · exact List.mem_append_right _ (hs w h ha)
  | comp r s hr hs =>
      rcases Language.mem_mul.mp h with ⟨u, hu, v, hv, rfl⟩
      rcases List.mem_append.mp ha with ha | ha
      · exact List.mem_append_left _ (hr u hu ha)
      · exact List.mem_append_right _ (hs v hv ha)
  | star r hr =>
      rcases Language.mem_kstar.mp h with ⟨ws, rfl, hws⟩
      rcases List.mem_flatten.mp ha with ⟨u, hu, hau⟩
      exact hr u (hws u hu) hau

theorem matchEpsilon_of_nil (r : RegularExpression α) (h : [] ∈ r.matches') :
    r.matchEpsilon = true := by
  induction r with
  | zero => exact absurd h (Set.notMem_empty _)
  | epsilon => rfl
  | char a => exact absurd h (List.cons_ne_nil a []).symm
  | plus r s hr hs =>
      change (r.matchEpsilon || s.matchEpsilon) = true
      rcases h with h | h
      · rw [hr h, Bool.true_or]
      · rw [hs h, Bool.or_true]
  | comp r s hr hs =>
      rcases Language.mem_mul.mp h with ⟨u, hu, v, hv, huv⟩
      rcases List.append_eq_nil_iff.mp huv with ⟨rfl, rfl⟩
      change (r.matchEpsilon && s.matchEpsilon) = true
      rw [hr hu, hs hv, Bool.and_self]
  | star r => rfl

/-- A match that is not empty begins with one of these symbols. -/
theorem mem_firsts (r : RegularExpression α) (a : α) (w : List α) (h : a :: w ∈ r.matches') :
    a ∈ firsts r := by
  induction r generalizing w with
  | zero => exact absurd h (Set.notMem_empty _)
  | epsilon => exact absurd ((Language.mem_one _).mp h) (List.cons_ne_nil a w)
  | char b => exact List.mem_singleton.mpr (List.cons.inj (show a :: w = [b] from h)).1
  | plus r s hr hs =>
      rcases h with h | h
      · exact List.mem_append_left _ (hr w h)
      · exact List.mem_append_right _ (hs w h)
  | comp r s hr hs =>
      rcases Language.mem_mul.mp h with ⟨u, hu, v, hv, huv⟩
      cases u with
      | nil =>
          refine List.mem_append_right _ ?_
          rw [if_pos (matchEpsilon_of_nil r hu)]
          rw [List.nil_append] at huv
          exact hs w (huv ▸ hv)
      | cons b u =>
          rw [List.cons_append] at huv
          have hb := (List.cons.inj huv).1
          exact List.mem_append_left _ (hr u (hb ▸ hu))
  | star r hr =>
      rcases Language.mem_kstar_iff_exists_nonempty.mp h with ⟨ws, hw, hws⟩
      cases ws with
      | nil => exact absurd hw (List.cons_ne_nil a w)
      | cons u ws =>
          cases u with
          | nil => exact absurd rfl (hws [] List.mem_cons_self).2
          | cons b u =>
              rw [List.flatten_cons, List.cons_append] at hw
              have hb := (List.cons.inj hw).1
              exact hr u (hb ▸ (hws (b :: u) List.mem_cons_self).1)

/-! ### Searching -/

section Search

variable [DecidableEq α]

/-- The longest match at the start of a text, of at most some length, with
    what follows it. -/
def longestUpTo (r : RegularExpression α) (s : List α) : Nat → Option (List α × List α)
  | 0 => if r.rmatch [] then some ([], s) else none
  | n + 1 =>
      if r.rmatch (s.take (n + 1)) then some (s.take (n + 1), s.drop (n + 1))
      else longestUpTo r s n

/-- The longest match at the start of a text. -/
def longest (r : RegularExpression α) (s : List α) : Option (List α × List α) :=
  longestUpTo r s s.length

/-- The leftmost match, and of those the longest: what precedes it, the match
    and what follows. -/
def search (r : RegularExpression α) : List α → Option (List α × List α × List α)
  | [] => (longest r []).map (fun m => ([], m.1, m.2))
  | a :: s =>
      match longest r (a :: s) with
      | some m => some ([], m.1, m.2)
      | none => (search r s).map (fun m => (a :: m.1, m.2))

/-- The matches from left to right, of an expression that does not match the
    empty text. Their number is bounded. -/
def findUpTo (r : RegularExpression α) : Nat → List α → List (List α)
  | 0, _ => []
  | n + 1, s =>
      match search r s with
      | none => []
      | some m => m.2.1 :: findUpTo r n m.2.2

def findAll (r : RegularExpression α) (s : List α) : List (List α) := findUpTo r s.length s

/-- The division of a match between two parts of an expression, of which the
    first takes at most so much. -/
def splitUpTo (r r' : RegularExpression α) (s : List α) : Nat → Option (List α × List α)
  | 0 => if r.rmatch [] && r'.rmatch s then some ([], s) else none
  | n + 1 =>
      if r.rmatch (s.take (n + 1)) && r'.rmatch (s.drop (n + 1)) then
        some (s.take (n + 1), s.drop (n + 1))
      else splitUpTo r r' s n

def split (r r' : RegularExpression α) (s : List α) : Option (List α × List α) :=
  splitUpTo r r' s s.length

/-- What follows cannot occur in a match. -/
def Stops (r : RegularExpression α) : List α → Prop
  | [] => True
  | a :: _ => a ∉ symbols r

instance (r : RegularExpression α) (s : List α) : Decidable (Stops r s) :=
  match s with
  | [] => isTrue trivial
  | a :: _ => inferInstanceAs (Decidable (a ∉ symbols r))

theorem stops_longer (r : RegularExpression α) (m post : List α) (h : Stops r post) (n : Nat)
    (hn : m.length < n) (hle : n ≤ (m ++ post).length) :
    ¬ r.rmatch ((m ++ post).take n) = true := by
  intro hmatch
  rw [rmatch_iff_matches'] at hmatch
  cases post with
  | nil =>
      rw [List.append_nil] at hle
      exact absurd hle (Nat.not_le.mpr hn)
  | cons a post =>
      refine h (mem_symbols r _ hmatch a ?_)
      rw [List.take_append, List.take_of_length_le (Nat.le_of_lt hn)]
      refine List.mem_append_right m ?_
      rcases Nat.exists_eq_add_of_lt hn with ⟨k, hk⟩
      rw [hk, show m.length + k + 1 - m.length = k + 1 by omega]
      exact List.mem_cons_self

/-- A match is the longest if what follows cannot occur in one. -/
theorem longest_eq (r : RegularExpression α) (m post : List α) (hm : m ∈ r.matches')
    (hstop : Stops r post) : longest r (m ++ post) = some (m, post) := by
  have h : ∀ n, m.length ≤ n → n ≤ (m ++ post).length →
      longestUpTo r (m ++ post) n = some (m, post) := by
    intro n hn hle
    induction n with
    | zero =>
        have hnil := List.length_eq_zero_iff.mp (Nat.le_zero.mp hn)
        rw [hnil] at hm ⊢
        rw [longestUpTo, if_pos ((rmatch_iff_matches' r []).mpr hm), List.nil_append]
    | succ n ih =>
        rw [longestUpTo]
        by_cases hlen : m.length = n + 1
        · rw [← hlen, List.take_left, List.drop_left,
            if_pos ((rmatch_iff_matches' r m).mpr hm)]
        · rw [if_neg (stops_longer r m post hstop (n + 1) (by omega) hle)]
          exact ih (by omega) (by omega)
  exact h _ (by rw [List.length_append]; exact Nat.le_add_right _ _) (Nat.le_refl _)

theorem longest_none (r : RegularExpression α) (s : List α)
    (h : ∀ m, m <+: s → m ∉ r.matches') : longest r s = none := by
  have hall : ∀ n, longestUpTo r s n = none := by
    intro n
    induction n with
    | zero => exact if_neg (fun hm => h [] List.nil_prefix ((rmatch_iff_matches' r []).mp hm))
    | succ n ih =>
        rw [longestUpTo, if_neg]
        · exact ih
        · exact fun hm => h _ (List.take_prefix _ _) ((rmatch_iff_matches' r _).mp hm)
  exact hall _

/-- A match that begins a text is found there. -/
theorem search_eq (r : RegularExpression α) (m post : List α) (hm : m ∈ r.matches')
    (hstop : Stops r post) : search r (m ++ post) = some ([], m, post) := by
  have h := longest_eq r m post hm hstop
  cases hs : m ++ post with
  | nil =>
      rw [hs] at h
      rw [search, h]
      rfl
  | cons a s =>
      rw [hs] at h
      rw [search, h]

/-- A match does not begin where none can. -/
theorem search_append (r : RegularExpression α) (pre s : List α) (hempty : ¬ r.matchEpsilon = true)
    (hpre : ∀ a ∈ pre, a ∉ firsts r) :
    search r (pre ++ s) = (search r s).map (fun m => (pre ++ m.1, m.2)) := by
  induction pre with
  | nil => exact Option.map_id'.symm
  | cons a pre ih =>
      have hnone : longest r (a :: (pre ++ s)) = none := by
        refine longest_none r _ (fun m hprefix hm => ?_)
        cases m with
        | nil => exact hempty (matchEpsilon_of_nil r hm)
        | cons b m =>
            rcases hprefix with ⟨t, ht⟩
            have hb := (List.cons.inj ht).1
            exact hpre a List.mem_cons_self (mem_firsts r a m (hb ▸ hm))
      rw [List.cons_append, search, hnone, ih (fun b hb => hpre b (List.mem_cons_of_mem a hb)),
        Option.map_map]
      rfl

/-- There is no match in a text without one. -/
theorem search_none (r : RegularExpression α) (s : List α)
    (h : ∀ m, m <:+: s → m ∉ r.matches') : search r s = none := by
  induction s with
  | nil =>
      rw [search, longest_none r [] (fun m hm => h m hm.isInfix)]
      rfl
  | cons a s ih =>
      rw [search, longest_none r (a :: s) (fun m hm => h m hm.isInfix),
        ih (fun m hm => h m (List.infix_cons hm))]
      rfl

/-- A part of a text can be the only match in it. -/
theorem findAll_eq (r : RegularExpression α) (pre m post : List α) (hne : m ≠ [])
    (hempty : ¬ r.matchEpsilon = true) (hpre : ∀ a ∈ pre, a ∉ firsts r) (hm : m ∈ r.matches')
    (hstop : Stops r post) (hpost : ∀ a ∈ post, a ∉ firsts r) :
    findAll r (pre ++ (m ++ post)) = [m] := by
  have hlen : ∃ n, (pre ++ (m ++ post)).length = n + 1 := by
    refine ⟨(pre ++ (m ++ post)).length - 1, ?_⟩
    have hpos := List.length_pos_of_ne_nil hne
    simp only [List.length_append]
    omega
  have hrest : ∀ n, findUpTo r n post = [] := by
    intro n
    cases n with
    | zero => rfl
    | succ n =>
        have hnone : search r [] = none := by
          refine search_none r [] (fun m' hm' hmem => hempty ?_)
          rw [List.infix_nil.mp hm'] at hmem
          exact matchEpsilon_of_nil r hmem
        have hs := search_append r post [] hempty hpost
        rw [List.append_nil, hnone] at hs
        rw [findUpTo, hs]
        rfl
  rcases hlen with ⟨n, hn⟩
  -- The one match is found first, and what follows it holds no other.
  rw [findAll, hn, findUpTo, search_append r pre _ hempty hpre, search_eq r m post hm hstop]
  simp only [Option.map_some, hrest]

/-- The first part of an expression takes all it can. -/
theorem split_eq (r r' : RegularExpression α) (m m' : List α) (hm : m ∈ r.matches')
    (hm' : m' ∈ r'.matches')
    (hlonger : ∀ n, m.length < n → n ≤ (m ++ m').length →
      ¬ r.rmatch ((m ++ m').take n) = true) :
    split r r' (m ++ m') = some (m, m') := by
  have h : ∀ n, m.length ≤ n → n ≤ (m ++ m').length →
      splitUpTo r r' (m ++ m') n = some (m, m') := by
    intro n hn hle
    induction n with
    | zero =>
        have hnil := List.length_eq_zero_iff.mp (Nat.le_zero.mp hn)
        rw [hnil] at hm ⊢
        rw [splitUpTo, List.nil_append, (rmatch_iff_matches' r []).mpr hm,
          (rmatch_iff_matches' r' m').mpr hm']
        rfl
    | succ n ih =>
        rw [splitUpTo]
        -- From the longest split down, none before this one is a match.
        by_cases hlen : m.length = n + 1
        · rw [← hlen, List.take_left, List.drop_left, (rmatch_iff_matches' r m).mpr hm,
            (rmatch_iff_matches' r' m').mpr hm']
          rfl
        · rw [if_neg]
          · exact ih (by omega) (by omega)
          · rw [Bool.and_eq_true]
            exact fun hboth => hlonger (n + 1) (by omega) hle hboth.1
  exact h _ (by rw [List.length_append]; exact Nat.le_add_right _ _) (Nat.le_refl _)

end Search

end Regex

end Wrk

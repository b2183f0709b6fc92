import Wrk.Http.Response
import Mathlib.Data.List.DropRight

/-!
# Conforming Requests

What a conforming HTTP/1.1 request to an origin server looks like and where it
ends, in the terms of the protocol. A request is a request line, header fields
and a body whose length one field gives. Transfer codings are left out: wrk
never writes a body in chunks.

## Main definitions

* `Request`: A request, with its target as a path and a query.
* `Request.Conforming`: A request that says how long its body is.
* `Request.persists`: A request after which another may follow.
-/

namespace Wrk

namespace Http

open HttpParser

/-- The characters of a target: visible ones, apart from the one that begins a
    fragment, which is not sent. -/
def isTargetChar (ch : Byte) : Bool := 33 ≤ ch && ch ≤ 126 && ch != '#'.toUInt8

/-- A target that is a path from the root, and maybe a query. -/
def isOriginForm : Bytes → Bool
  | [] => false
  | ch :: rest => ch == '/'.toUInt8 && rest.all isTargetChar

/-- The field says what becomes of the connection. -/
def Field.isConnection (f : Field) : Bool := f.isNamed CONNECTION || f.isNamed PROXY_CONNECTION

/-! ### Fields as they are written -/

theorem rdropWhile_append (p : Byte → Bool) (text : Bytes) :
    text.rdropWhile p ++ text.rtakeWhile p = text := by
  unfold List.rdropWhile List.rtakeWhile
  rw [← List.reverse_append, List.takeWhile_append_dropWhile, List.reverse_reverse]

theorem dropWhile_first (p : Byte → Bool) (text : Bytes) :
    (text.dropWhile p).head?.any p = false := by
  have hhead := List.head?_dropWhile_not p text
  cases hfirst : (text.dropWhile p).head? with
  | none => rfl
  | some ch =>
      rw [hfirst] at hhead
      exact hhead

/-- A field with a space before its text. White space at the ends of the text
    is not part of the value. -/
def Field.ofText (name text : Bytes) (hname : name.isEmpty = false)
    (htoken : name.all isTokenChar = true) (htext : text.all isText = true) : Field :=
  { name := name
    lead := SP :: text.takeWhile isSpace
    value := (text.dropWhile isSpace).rdropWhile isSpace
    trail := (text.dropWhile isSpace).rtakeWhile isSpace
    named := hname
    token := htoken
    blank := by
      rw [List.all_append, List.all_cons, Bool.and_eq_true, Bool.and_eq_true]
      exact ⟨⟨rfl, List.all_eq_true.mpr fun _ h => (List.mem_takeWhile_imp h)⟩,
        List.all_eq_true.mpr fun _ h => List.mem_rtakeWhile_imp h⟩
    text := by
      refine List.all_eq_true.mpr fun ch h => List.all_eq_true.mp htext ch ?_
      exact (List.dropWhile_suffix isSpace).subset ((List.rdropWhile_prefix isSpace _).subset h)
    first := by
      have hfirst := dropWhile_first isSpace text
      have hprefix := List.rdropWhile_prefix isSpace (text.dropWhile isSpace)
      cases hvalue : (text.dropWhile isSpace).rdropWhile isSpace with
      | nil => rfl
      | cons ch more =>
          rw [hvalue] at hprefix
          rcases hprefix with ⟨rest, hrest⟩
          rw [← hrest] at hfirst
          exact hfirst
    last := by
      cases hlast : ((text.dropWhile isSpace).rdropWhile isSpace).getLast? with
      | none => rfl
      | some ch =>
          rcases List.getLast?_eq_some_iff.mp hlast with ⟨more, hmore⟩
          have hne : (text.dropWhile isSpace).rdropWhile isSpace ≠ [] := by
            rw [hmore]
            exact List.append_ne_nil_of_right_ne_nil _ (List.cons_ne_nil ch [])
          have hnot := List.rdropWhile_last_not isSpace _ hne
          rw [List.getLast?_eq_some_getLast hne, Option.some.injEq] at hlast
          rw [hlast] at hnot
          exact Bool.eq_false_iff.mpr hnot
    empty := by
      intro hempty
      have hall := List.rdropWhile_eq_nil_iff.mp (List.isEmpty_iff.mp hempty)
      have hfirst := dropWhile_first isSpace text
      -- Nothing but white space is left, and that would have been taken before.
      cases hrest : text.dropWhile isSpace with
      | nil => rfl
      | cons ch more =>
          rw [hrest] at hall hfirst
          exact absurd ((hall ch List.mem_cons_self).symm.trans hfirst) Bool.noConfusion }

/-- The line of such a field. -/
theorem ofText_bytes (name text : Bytes) (hname : name.isEmpty = false)
    (htoken : name.all isTokenChar = true) (htext : text.all isText = true) :
    (Field.ofText name text hname htoken htext).bytes =
      name ++ HttpParser.bytes ": " ++ text ++ CRLF := by
  have hrest : (Field.ofText name text hname htoken htext).rest = text.dropWhile isSpace :=
    rdropWhile_append isSpace _
  unfold Field.bytes
  rw [hrest]
  change name ++ [COLON] ++ (SP :: text.takeWhile isSpace) ++ text.dropWhile isSpace ++ CRLF = _
  have hsplit : (SP :: text.takeWhile isSpace) ++ text.dropWhile isSpace = SP :: text := by
    rw [List.cons_append, List.takeWhile_append_dropWhile]
  rw [List.append_assoc (name ++ [COLON]), hsplit, List.append_cons, List.append_assoc name]
  rfl

/-- A text without white space is all value. -/
theorem ofText_value (name text : Bytes) (hname : name.isEmpty = false)
    (htoken : name.all isTokenChar = true) (htext : text.all isText = true)
    (hspace : ∀ ch ∈ text, isSpace ch = false) :
    (Field.ofText name text hname htoken htext).value = text ∧
      (Field.ofText name text hname htoken htext).trail = [] := by
  have hfirst : text.dropWhile isSpace = text := by
    cases text with
    | nil => rfl
    | cons ch rest =>
        rw [List.dropWhile_cons, hspace ch List.mem_cons_self, if_neg Bool.false_ne_true]
  have hlast : ∀ hne : text ≠ [], ¬ isSpace (text.getLast hne) = true := fun hne =>
    Bool.eq_false_iff.mp (hspace _ (List.getLast_mem hne))
  unfold Field.ofText
  dsimp only
  rw [hfirst]
  exact ⟨List.rdropWhile_eq_self_iff.mpr hlast, List.rtakeWhile_eq_nil_iff.mpr hlast⟩

/-! ### Requests -/

/-- A request. -/
structure Request where
  method : Bytes
  target : Bytes
  fields : List Field
  body : Bytes

namespace Request

def requestLine (r : Request) : Bytes :=
  r.method ++ [SP] ++ r.target ++ HttpParser.bytes " HTTP/1.1" ++ CRLF

def fieldLines (r : Request) : Bytes := r.fields.flatMap Field.bytes

def head (r : Request) : Bytes := r.requestLine ++ r.fieldLines ++ CRLF

def bytes (r : Request) : Bytes := r.head ++ r.body

/-- The fields that give a length. -/
def lengths (r : Request) : List Field := r.fields.filter Field.isContentLength

def contentLength (r : Request) : Option Nat := r.lengths.head?.map (fun f => decimal f.value)

/-- The sender does not mention the connection, so that it persists. -/
def persists (r : Request) : Bool := !r.fields.any Field.isConnection

/-- A request that a sender may generate. Without a length there is no body. -/
structure Conforming (r : Request) : Prop where
  target : isOriginForm r.target = true
  uncoded : r.fields.any Field.isTransferEncoding = false
  single : r.lengths.length ≤ 1
  number : ∀ f ∈ r.lengths, f.value.isEmpty = false ∧ f.value.all isDigit = true
  body : r.contentLength.getD 0 = r.body.length

end Request

end Http

end Wrk

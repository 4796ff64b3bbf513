import Mathlib.Data.List.Basic
import Mathlib.Data.List.Infix
import LatticeFlow.RcClient

/-!
# Splitting Strings

`split` of `key_value_stores/util.cc`, with which the client's prompt takes a command line
apart. It is a loop over `std::getline`, which extracts the characters up to the next
delimiter and the delimiter itself, or everything that is left if there is no delimiter, and
fails when nothing is left.

A delimiter therefore ends a part rather than to separate two of them: between delimiters
there are empty parts, but after a last delimiter there is none.

## Main results

* `split_nil`, `split_of_notMem`, `split_append`: the three kinds of strings.
* `split_inverts_join`: splitting undoes joining, and joining undoes splitting but for one
  delimiter at the end.
* `replCommand_eq_some_iff`: the lines that the prompt accepts.
-/

universe u

namespace LatticeFlow

variable {α : Type u} [DecidableEq α]

/-- `std::getline` on a stream with something left: the item, and what is left then. -/
def getlineLoop (delim : α) (item : List α) : List α → List α × List α
  | [] => (item, [])
  | c :: cs => if c = delim then (item, cs) else getlineLoop delim (item ++ [c]) cs

/-- `std::getline(ss, item, delim)`. -/
def getline (ss : List α) (delim : α) : Option (List α × List α) :=
  match ss with
  | [] => none
  | c :: cs => some (getlineLoop delim [] (c :: cs))

/-- `getline` leaves less than it was given. -/
theorem getlineLoop_length (delim : α) (item s : List α) :
    (getlineLoop delim item s).2.length ≤ s.length - 1 := by
  induction s generalizing item with
  | nil => simp [getlineLoop]
  | cons c cs ih =>
      rw [getlineLoop]
      split_ifs
      · simp
      · have := ih (item ++ [c])
        rw [List.length_cons]
        omega

/-- A successful `getline` leaves less than there was. -/
theorem getline_length {ss item rest : List α} {delim : α}
    (h : getline ss delim = some (item, rest)) : rest.length < ss.length := by
  cases ss with
  | nil => cases h
  | cons c cs =>
      have hlen := getlineLoop_length delim [] (c :: cs)
      rw [Option.some.inj h] at hlen
      simp only [List.length_cons] at hlen ⊢
      omega

/-- The loop of `split`. -/
def splitLoop (delim : α) (elems : List (List α)) (ss : List α) : List (List α) :=
  match _h : getline ss delim with
  | none => elems
  | some (item, rest) => splitLoop delim (elems ++ [item]) rest
termination_by ss.length
decreasing_by exact getline_length _h

/-- `split(s, delim, elems)`, which clears `elems` first. -/
def split (s : List α) (delim : α) : List (List α) :=
  splitLoop delim [] s

/-! ### What getline extracts -/

/-- There is no delimiter: everything is extracted. -/
theorem getlineLoop_of_notMem {delim : α} {s : List α} (h : delim ∉ s) (item : List α) :
    getlineLoop delim item s = (item ++ s, []) := by
  induction s generalizing item with
  | nil => simp [getlineLoop]
  | cons c cs ih =>
      obtain ⟨hc, hcs⟩ := not_or.mp (mt List.mem_cons.mpr h)
      rw [getlineLoop, if_neg (Ne.symm hc), ih hcs, List.append_assoc, List.singleton_append]

/-- The characters up to the first delimiter are extracted, and the delimiter. -/
theorem getlineLoop_append {delim : α} {p : List α} (h : delim ∉ p) (item rest : List α) :
    getlineLoop delim item (p ++ delim :: rest) = (item ++ p, rest) := by
  induction p generalizing item with
  | nil => simp [getlineLoop]
  | cons c cs ih =>
      obtain ⟨hc, hcs⟩ := not_or.mp (mt List.mem_cons.mpr h)
      rw [List.cons_append, getlineLoop, if_neg (Ne.symm hc), ih hcs, List.append_assoc,
        List.singleton_append]

/-- `getline` succeeds where something is left. -/
theorem getline_of_ne_nil {s : List α} (h : s ≠ []) (delim : α) :
    getline s delim = some (getlineLoop delim [] s) := by
  obtain ⟨c, cs, rfl⟩ := List.exists_cons_of_ne_nil h
  rfl

/-! ### What split returns -/

/-- One turn of the loop. -/
theorem splitLoop_of_some {delim : α} {ss item rest : List α} (elems : List (List α))
    (h : getline ss delim = some (item, rest)) :
    splitLoop delim elems ss = splitLoop delim (elems ++ [item]) rest := by
  rw [splitLoop]
  split
  · rename_i hnone
    rw [h] at hnone
    cases hnone
  · rename_i item' rest' hsome
    rw [h] at hsome
    obtain ⟨rfl, rfl⟩ := Prod.mk.inj (Option.some.inj hsome)
    rfl

/-- The loop ends. -/
theorem splitLoop_of_none {delim : α} {ss : List α} (elems : List (List α))
    (h : getline ss delim = none) : splitLoop delim elems ss = elems := by
  rw [splitLoop]
  split
  · rfl
  · rename_i hsome
    rw [h] at hsome
    cases hsome

/-- The loop appends to the parts it has. -/
theorem splitLoop_eq (delim : α) (elems : List (List α)) (ss : List α) :
    splitLoop delim elems ss = elems ++ split ss delim := by
  induction hn : ss.length using Nat.strong_induction_on generalizing elems ss with
  | _ n ih =>
      subst hn
      rw [split]
      cases hget : getline ss delim with
      | none => rw [splitLoop_of_none elems hget, splitLoop_of_none [] hget, List.append_nil]
      | some r =>
          have hlt := getline_length hget
          rw [splitLoop_of_some elems hget, splitLoop_of_some [] hget,
            ih _ hlt (elems ++ [r.1]) r.2 rfl, ih _ hlt ([] ++ [r.1]) r.2 rfl,
            List.nil_append, List.append_assoc]

/-- Nothing is split into no parts. -/
theorem split_nil (delim : α) : split [] delim = [] :=
  splitLoop_of_none [] rfl

/-- A string that is not empty and has no delimiter is one part. -/
theorem split_of_notMem {delim : α} {s : List α} (hs : s ≠ []) (h : delim ∉ s) :
    split s delim = [s] := by
  have hget : getline s delim = some (s, []) := by
    rw [getline_of_ne_nil hs, getlineLoop_of_notMem h, List.nil_append]
  rw [split, splitLoop_of_some [] hget, splitLoop_eq, split_nil]
  rfl

/-- What precedes the first delimiter is the first part. -/
theorem split_append {delim : α} {p : List α} (h : delim ∉ p) (rest : List α) :
    split (p ++ delim :: rest) delim = p :: split rest delim := by
  have hget : getline (p ++ delim :: rest) delim = some (p, rest) := by
    rw [getline_of_ne_nil (by simp), getlineLoop_append h, List.nil_append]
  rw [split, splitLoop_of_some [] hget, splitLoop_eq]
  rfl

/-! ### Splitting and joining -/

/-- Induction along the delimiters of a string. -/
theorem split_induction (delim : α) {motive : List α → Prop} (nil : motive [])
    (part : ∀ s, s ≠ [] → delim ∉ s → motive s)
    (append : ∀ p rest, delim ∉ p → motive rest → motive (p ++ delim :: rest)) (s : List α) :
    motive s := by
  induction hn : s.length using Nat.strong_induction_on generalizing s with
  | _ n ih =>
      subst hn
      by_cases hmem : delim ∈ s
      · obtain ⟨p, rest, rfl, hp⟩ := List.eq_append_cons_of_mem hmem
        refine append p rest hp (ih rest.length ?_ rest rfl)
        rw [List.length_append, List.length_cons]
        omega
      · by_cases hs : s = []
        · exact hs ▸ nil
        · exact part s hs hmem

/-- A string with something in it has a part. -/
theorem split_ne_nil {delim : α} {s : List α} (hs : s ≠ []) : split s delim ≠ [] := by
  induction s using split_induction delim with
  | nil => exact absurd rfl hs
  | part s hs h =>
      rw [split_of_notMem hs h]
      exact List.cons_ne_nil _ _
  | append p rest hp _ =>
      rw [split_append hp]
      exact List.cons_ne_nil _ _

/-- The parts have no delimiters. -/
theorem notMem_of_mem_split {delim : α} (s : List α) : ∀ p ∈ split s delim, delim ∉ p := by
  induction s using split_induction delim with
  | nil =>
      rw [split_nil]
      exact List.forall_mem_nil _
  | part s hs h =>
      rw [split_of_notMem hs h]
      exact List.forall_mem_singleton.mpr h
  | append p rest hp ih =>
      rw [split_append hp]
      exact List.forall_mem_cons.mpr ⟨hp, ih⟩

/-- Joining the parts gives the string, but for a delimiter at its end. -/
theorem intercalate_split (delim : α) (s : List α) :
    [delim].intercalate (split s delim) ++ (if s.getLast? = some delim then [delim] else []) =
      s := by
  induction s using split_induction delim with
  | nil =>
      rw [split_nil]
      rfl
  | part s hs h =>
      have hlast : s.getLast? ≠ some delim := fun hlast => h (List.mem_of_getLast? hlast)
      rw [split_of_notMem hs h, List.intercalate_singleton, if_neg hlast, List.append_nil]
  | append p rest hp ih =>
      rw [split_append hp]
      by_cases hrest : rest = []
      · -- The delimiter at the end.
        subst hrest
        rw [split_nil]
        simp
      · have hlast : (p ++ delim :: rest).getLast? = rest.getLast? := by
          rw [List.getLast?_append_cons, List.getLast?_cons_of_ne_nil hrest]
        rw [hlast, List.intercalate_cons_of_ne_nil (split_ne_nil hrest), List.append_assoc, ih,
          List.append_assoc, List.singleton_append]

/-- Splitting joined parts gives the parts, if the last one can be seen. -/
theorem split_intercalate {delim : α} {parts : List (List α)}
    (h : ∀ p ∈ parts, delim ∉ p) (hlast : parts.getLast? ≠ some []) :
    split ([delim].intercalate parts) delim = parts := by
  induction parts with
  | nil => exact split_nil delim
  | cons p parts ih =>
      obtain ⟨hp, hparts⟩ := List.forall_mem_cons.mp h
      cases parts with
      | nil =>
          rw [List.intercalate_singleton]
          exact split_of_notMem (by simpa using hlast) hp
      | cons q parts =>
          rw [List.intercalate_cons_cons, List.append_assoc, List.singleton_append,
            split_append hp, ih hparts (by simpa using hlast)]

/-- **`split` inverts joining by the delimiter.** The parts of any string have no delimiters,
and joined with it give the string back, except that of a string that ends with a delimiter
this one is dropped. Strings without delimiters, of which the last one is not empty, are
what their concatenation with the delimiter in between is split into; the empty string is
split into nothing. -/
theorem split_inverts_join (delim : α) :
    (∀ s : List α, (∀ p ∈ split s delim, delim ∉ p) ∧
      [delim].intercalate (split s delim) ++
        (if s.getLast? = some delim then [delim] else []) = s) ∧
    (∀ parts : List (List α), (∀ p ∈ parts, delim ∉ p) → parts.getLast? ≠ some [] →
      split ([delim].intercalate parts) delim = parts) ∧
    split ([] : List α) delim = [] :=
  ⟨fun s => ⟨notMem_of_mem_split s, intercalate_split delim s⟩,
    fun _ h hlast => split_intercalate h hlast, split_nil delim⟩

/-- A command line of three words is split into them. -/
theorem split_inverts_join_three_words :
    [' '].intercalate [['P', 'U', 'T'], ['k'], ['v']] = ['P', 'U', 'T', ' ', 'k', ' ', 'v'] ∧
      split ['P', 'U', 'T', ' ', 'k', ' ', 'v'] ' ' = [['P', 'U', 'T'], ['k'], ['v']] :=
  ⟨by decide, (split_inverts_join ' ').2.1 [['P', 'U', 'T'], ['k'], ['v']] (by decide) (by decide)⟩

/-! ### The prompt of the client -/

/-- The bytes of a text in ASCII. -/
def ascii (s : List Char) : Bytes :=
  s.map fun c => Fin.ofNat 256 c.toNat

def beginWord : Bytes := ascii ['B', 'E', 'G', 'I', 'N']

def getWord : Bytes := ascii ['G', 'E', 'T']

def putWord : Bytes := ascii ['P', 'U', 'T']

def endWord : Bytes := ascii ['E', 'N', 'D']

def transactionWord : Bytes :=
  ascii ['T', 'R', 'A', 'N', 'S', 'A', 'C', 'T', 'I', 'O', 'N']

/-- The space between the words. -/
def space : Byte := Fin.ofNat 256 ' '.toNat

/-- The words of a command. -/
def commandWords : ClientCommand → List Bytes
  | .begin => [beginWord, transactionWord]
  | .get k => [getWord, k]
  | .put k v => [putWord, k, v]
  | .end_ => [endWord, transactionWord]

/-- What `repl` takes a line of input for; `none` is an invalid command. -/
def replCommand (input : Bytes) : Option ClientCommand :=
  let ss := split input space
  if ss.length = 2 ∧ ss[0]? = some beginWord ∧ ss[1]? = some transactionWord then
    some .begin
  else if ss.length = 2 ∧ ss[0]? = some getWord then
    ss[1]?.map .get
  else if ss.length = 3 ∧ ss[0]? = some putWord then do
    let k ← ss[1]?
    let v ← ss[2]?
    return .put k v
  else if ss.length = 2 ∧ ss[0]? = some endWord ∧ ss[1]? = some transactionWord then
    some .end_
  else none

/-- **The prompt accepts exactly the lines that are split into the words of a command.** -/
theorem replCommand_eq_some_iff {input : Bytes} {c : ClientCommand} :
    replCommand input = some c ↔ split input space = commandWords c := by
  rw [replCommand]
  generalize split input space = ss
  constructor
  · intro h
    split_ifs at h with hbegin hget hput hend
    · obtain ⟨hlen, h0, h1⟩ := hbegin
      obtain ⟨x, y, rfl⟩ := List.length_eq_two.mp hlen
      cases h0
      cases h1
      cases h
      rfl
    · obtain ⟨hlen, h0⟩ := hget
      obtain ⟨x, y, rfl⟩ := List.length_eq_two.mp hlen
      cases h0
      cases h
      rfl
    · obtain ⟨hlen, h0⟩ := hput
      obtain ⟨x, y, z, rfl⟩ := List.length_eq_three.mp hlen
      cases h0
      cases h
      rfl
    · obtain ⟨hlen, h0, h1⟩ := hend
      obtain ⟨x, y, rfl⟩ := List.length_eq_two.mp hlen
      cases h0
      cases h1
      cases h
      rfl
  · rintro rfl
    have hget : getWord ≠ beginWord := by decide
    cases c with
    | begin => rfl
    | get k => simp [commandWords, hget]
    | put k v => simp [commandWords]
    | end_ => rfl

end LatticeFlow

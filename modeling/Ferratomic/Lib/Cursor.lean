import Ferratomic.Lib.Reads

/-!
# Parsers over positions

A parser can carry the whole byte string and the position it has come to, or the bytes that are
left. `Tracks` says that two parsers do the same in these two ways, failures included. The rules
`Tracks.bind` and `Tracks.many` lift it to composed parsers and to counted loops, so that what is
proved of parsers of the rest holds of parsers over positions.
-/

namespace Ferratomic.Lib

variable {ε α β : Type}

/-- The two parsers read the same value and come to the same place, or fail in the same way. -/
structure Tracks (parseAt : Bytes → Nat → Except ε (α × Nat))
    (parse : Bytes → Except ε (α × Bytes)) : Prop where
  same : ∀ (data : Bytes) (pos : Nat), pos ≤ data.length →
    parse (data.drop pos) = (parseAt data pos).map fun read => (read.1, data.drop read.2)
  le : ∀ (data : Bytes) (pos : Nat) (value : α) (next : Nat), pos ≤ data.length →
    parseAt data pos = .ok (value, next) → next ≤ data.length

namespace Tracks

variable {parseAt : Bytes → Nat → Except ε (α × Nat)} {parse : Bytes → Except ε (α × Bytes)}

/-- One parser after the other. -/
theorem bind (h : Tracks parseAt parse) {nextAt : α → Bytes → Nat → Except ε (β × Nat)}
    {next : α → Bytes → Except ε (β × Bytes)} (hnext : ∀ read, Tracks (nextAt read) (next read)) :
    Tracks (fun data pos => parseAt data pos >>= fun read => nextAt read.1 data read.2)
      fun bytes => parse bytes >>= fun read => next read.1 read.2 := by
  constructor
  · intro data pos hpos
    rw [h.same data pos hpos]
    cases hread : parseAt data pos with
    | error e => rfl
    | ok read => exact (hnext read.1).same data read.2 (h.le data pos read.1 read.2 hpos hread)
  · intro data pos value last hpos hlast
    cases hread : parseAt data pos with
    | error e =>
        rw [hread] at hlast
        cases hlast
    | ok read =>
        rw [hread] at hlast
        exact (hnext read.1).le data read.2 value last
          (h.le data pos read.1 read.2 hpos hread) hlast

/-- A value without reading. -/
theorem value (found : α) :
    Tracks (fun _ pos => (.ok (found, pos) : Except ε (α × Nat))) fun bytes =>
      .ok (found, bytes) where
  same _ _ _ := rfl
  le _ _ _ _ hpos hread := by
    cases hread
    exact hpos

/-- A value computed from what was read. -/
theorem map (h : Tracks parseAt parse) (f : α → β) :
    Tracks (fun data pos => parseAt data pos >>= fun read => .ok (f read.1, read.2))
      fun bytes => parse bytes >>= fun read => .ok (f read.1, read.2) :=
  h.bind fun read => value (f read)

end Tracks

/-- A number of items in a row. -/
def readManyAt (item : Bytes → Nat → Except ε (α × Nat)) (data : Bytes) :
    Nat → Nat → Except ε (List α × Nat)
  | 0, pos => .ok ([], pos)
  | count + 1, pos => do
      let (first, pos) ← item data pos
      let (rest, pos) ← readManyAt item data count pos
      pure (first :: rest, pos)

/-- A counted loop does item by item what its item does. -/
theorem Tracks.many {itemAt : Bytes → Nat → Except ε (α × Nat)}
    {item : Bytes → Except ε (α × Bytes)} (h : Tracks itemAt item) (count : Nat) :
    Tracks (fun data pos => readManyAt itemAt data count pos) (readMany item count) := by
  induction count with
  | zero => exact Tracks.value []
  | succ count ih => exact h.bind fun first => ih.map fun rest => first :: rest

end Ferratomic.Lib

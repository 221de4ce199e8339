import Ferratomic.Lib.Bytes

/-!
# Parsers and what they accept

`Reads parse spells` describes a parser completely: it succeeds with a value and a rest exactly on
a spelling of the value in front of the rest. A parser whose values have one spelling each is the
inverse of an encoder; a value with two spellings is where decoding loses information. The rules
`Reads.bind` and `Reads.check` give the description of a composed parser, and `Reads.many` that of
a counted loop.
-/

namespace Ferratomic.Lib

variable {ε α β : Type}

/-- The parser succeeds exactly on spellings in front of a rest. -/
def Reads (parse : Bytes → Except ε (α × Bytes)) (spells : α → Bytes → Prop) : Prop :=
  ∀ bytes value rest, parse bytes = .ok (value, rest) ↔
    ∃ spelling, spells value spelling ∧ bytes = spelling ++ rest

/-- A parser reads what is spelt alike. -/
theorem Reads.congr {parse : Bytes → Except ε (α × Bytes)} {spells spells' : α → Bytes → Prop}
    (h : Reads parse spells)
    (hiff : ∀ value spelling, spells value spelling ↔ spells' value spelling) :
    Reads parse spells' := by
  intro bytes value rest
  rw [h bytes value rest]
  simp only [hiff]

/-- One parser after the other. -/
theorem Reads.bind {parse : Bytes → Except ε (α × Bytes)}
    {next : α → Bytes → Except ε (β × Bytes)} {spells : α → Bytes → Prop}
    {spells' : α → β → Bytes → Prop} (h : Reads parse spells)
    (hnext : ∀ read, Reads (next read) (spells' read)) :
    Reads (fun bytes => parse bytes >>= fun read => next read.1 read.2)
      fun value spelling => ∃ read first second,
        spells read first ∧ spells' read value second ∧ spelling = first ++ second := by
  intro bytes value rest
  beta_reduce
  constructor
  · intro hparse
    cases hread : parse bytes with
    | error e =>
        rw [hread] at hparse
        cases hparse
    | ok read =>
        rw [hread] at hparse
        obtain ⟨first, hfirst, rfl⟩ := (h bytes read.1 read.2).mp hread
        obtain ⟨second, hsecond, hrest⟩ := (hnext read.1 read.2 value rest).mp hparse
        refine ⟨first ++ second, ⟨read.1, first, second, hfirst, hsecond, rfl⟩, ?_⟩
        rw [hrest, List.append_assoc]
  · rintro ⟨_, ⟨read, first, second, hfirst, hsecond, rfl⟩, hbytes⟩
    rw [List.append_assoc] at hbytes
    rw [(h bytes read (second ++ rest)).mpr ⟨first, hfirst, hbytes⟩]
    exact (hnext read (second ++ rest) value rest).mpr ⟨second, hsecond, rfl⟩

/-- A check on what was read, which fails or gives the value. -/
theorem Reads.check {parse : Bytes → Except ε (α × Bytes)} {spells : α → Bytes → Prop}
    (h : Reads parse spells) (test : α → Except ε β) :
    Reads (fun bytes => parse bytes >>= fun read =>
        test read.1 >>= fun value => pure (value, read.2))
      fun value spelling => ∃ read, test read = .ok value ∧ spells read spelling := by
  have hnext (read : α) : Reads (fun rest => test read >>= fun value => pure (value, rest))
      fun value spelling => test read = .ok value ∧ spelling = [] := by
    intro bytes value rest
    beta_reduce
    cases htest : test read with
    | error e =>
        constructor
        · intro hfail
          cases hfail
        · rintro ⟨_, ⟨hfail, _⟩, _⟩
          cases hfail
    | ok found =>
        constructor
        · intro hdone
          cases hdone
          exact ⟨[], ⟨rfl, rfl⟩, rfl⟩
        · rintro ⟨_, ⟨hdone, rfl⟩, rfl⟩
          cases hdone
          rfl
  refine (h.bind hnext).congr fun value spelling => ?_
  constructor
  · rintro ⟨read, first, _, hfirst, ⟨htest, rfl⟩, rfl⟩
    rw [List.append_nil]
    exact ⟨read, htest, hfirst⟩
  · rintro ⟨read, htest, hspells⟩
    exact ⟨read, spelling, [], hspells, ⟨htest, rfl⟩, (List.append_nil _).symm⟩

/-- A value computed from what was read. -/
theorem Reads.map {parse : Bytes → Except ε (α × Bytes)} {spells : α → Bytes → Prop}
    (h : Reads parse spells) (f : α → β) :
    Reads (fun bytes => parse bytes >>= fun read => pure (f read.1, read.2))
      fun value spelling => ∃ read, f read = value ∧ spells read spelling := by
  refine (h.check fun read => .ok (f read)).congr fun value spelling => ?_
  simp only [Except.ok.injEq]

/-- A tag byte that selects the parser of what follows it. -/
theorem Reads.tagged {body : UInt8 → Bytes → Except ε (α × Bytes)} {spells : α → Bytes → Prop}
    {missing : ε} (h : ∀ tag, Reads (body tag) fun value spelling => spells value (tag :: spelling))
    (hne : ∀ value, ¬ spells value []) :
    Reads (fun
        | [] => .error missing
        | tag :: rest => body tag rest) spells := by
  intro bytes value rest
  cases bytes with
  | nil =>
      constructor
      · intro hfail
        cases hfail
      · rintro ⟨spelling, hspells, hnil⟩
        rw [(List.append_eq_nil_iff.mp hnil.symm).1] at hspells
        exact absurd hspells (hne value)
  | cons tag bytes =>
      show body tag bytes = .ok (value, rest) ↔ _
      rw [h tag bytes value rest]
      constructor
      · rintro ⟨spelling, hspells, rfl⟩
        exact ⟨tag :: spelling, hspells, rfl⟩
      · rintro ⟨spelling, hspells, hbytes⟩
        cases spelling with
        | nil => exact absurd hspells (hne value)
        | cons first spelling =>
            obtain ⟨rfl, rfl⟩ := List.cons.inj hbytes
            exact ⟨spelling, hspells, rfl⟩

/-- A number of items in a row. -/
def readMany (item : Bytes → Except ε (α × Bytes)) : Nat → Bytes → Except ε (List α × Bytes)
  | 0, bytes => .ok ([], bytes)
  | count + 1, bytes => do
      let (first, bytes) ← item bytes
      let (rest, bytes) ← readMany item count bytes
      pure (first :: rest, bytes)

/-- Items with one spelling each are read in a row from their spellings in a row. -/
theorem Reads.many {item : Bytes → Except ε (α × Bytes)} {fits : α → Prop} {encode : α → Bytes}
    (h : Reads item fun value spelling => fits value ∧ spelling = encode value) (count : Nat) :
    Reads (readMany item count) fun values spelling =>
      values.length = count ∧ (∀ value ∈ values, fits value) ∧
        spelling = values.flatMap encode := by
  induction count with
  | zero =>
      intro bytes values rest
      rw [readMany, Except.ok.injEq, Prod.mk.injEq]
      constructor
      · rintro ⟨rfl, rfl⟩
        exact ⟨[], ⟨rfl, nofun, rfl⟩, rfl⟩
      · rintro ⟨_, ⟨hlength, -, rfl⟩, rfl⟩
        obtain rfl := List.length_eq_zero_iff.mp hlength
        exact ⟨rfl, rfl⟩
  | succ count ih =>
      refine (h.bind fun first => ih.map fun rest => first :: rest).congr fun values spelling => ?_
      constructor
      · rintro ⟨first, _, _, ⟨hfirst, rfl⟩, ⟨rest, rfl, rfl, hrest, rfl⟩, rfl⟩
        exact ⟨rfl, List.forall_mem_cons.mpr ⟨hfirst, hrest⟩, rfl⟩
      · rintro ⟨hlength, hfits, rfl⟩
        cases values with
        | nil => cases hlength
        | cons first rest =>
            obtain ⟨hfirst, hrest⟩ := List.forall_mem_cons.mp hfits
            exact ⟨first, encode first, rest.flatMap encode, ⟨hfirst, rfl⟩,
              ⟨rest, rfl, Nat.succ.inj hlength, hrest, rfl⟩, rfl⟩

end Ferratomic.Lib

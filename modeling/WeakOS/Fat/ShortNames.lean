import Mathlib
import WeakOS.Fat.Names

namespace WeakOS

namespace Fat

/-!
# Reading short names back

A short name is a base and an extension, each padded with spaces.  The loop of
`enumerate_directory` writes the base, a dot and the extension over whatever
the local variable held, and writes no terminator.
-/

/-- The 11 bytes of a short name. -/
structure IsShortName (entry : DirEntry) (base extension : List (BitVec 8)) : Prop where
  baseLength : 1 ≤ base.length ∧ base.length ≤ 8
  extensionLength : extension.length ≤ 3
  noSpace : ∀ ch ∈ base ++ extension, ch ≠ chr ' '
  baseBytes : (List.range 8).map entry.fileName =
    base ++ List.replicate (8 - base.length) (chr ' ')
  extensionBytes : (List.range 3).map (fun j => entry.fileName (8 + j)) =
    extension ++ List.replicate (3 - extension.length) (chr ' ')

/-- The name that the bytes stand for. -/
def dotted (base extension : List (BitVec 8)) : List (BitVec 8) :=
  base ++ if extension = [] then [] else chr '.' :: extension

/-- The buffer begins with the text and a zero, and the text is accepted, and no
other string is. -/
structure ShowsName (name : Name) (text : List (BitVec 8)) : Prop where
  begins : widen text ++ [0] <+: name.units
  accepted : namecmp text name text.length = some true
  only : ∀ other, 0 ∉ other → namecmp other name other.length = some true → other = text

/-! ## What `namecmp` accepts -/

section Namecmp

variable {name : Name} {text : List (BitVec 8)}

/-- A character that equals a unit is not negative. -/
theorem ascii_of_signExtend {ch : BitVec 8} {unit : BitVec 16}
    (same : ch.signExtend 32 = unit.setWidth 32) : ch.toNat < 128 := by
  have large : ∀ ch : BitVec 8, 128 ≤ ch.toNat → 2 ^ 16 ≤ (ch.signExtend 32).toNat := by decide
  have small := unit.isLt
  have value := congrArg BitVec.toNat same
  rw [BitVec.toNat_setWidth_of_le (by decide)] at value
  by_contra negative
  have bound := large ch (Nat.not_lt.mp negative)
  omega

/-- Only ASCII strings that fit a name are accepted. -/
theorem ascii_of_namecmpLoop {i : Nat} {chars : List (BitVec 8)}
    (accepted : namecmpLoop name i chars = some true) :
    i + chars.length < 256 ∧ ∀ ch ∈ chars, ch.toNat < 128 := by
  induction chars generalizing i with
  | nil =>
      rw [namecmpLoop] at accepted
      split at accepted
      · rename_i bound
        exact ⟨bound, fun _ none => absurd none List.not_mem_nil⟩
      · cases accepted
  | cons ch rest inductionHypothesis =>
      rw [namecmpLoop] at accepted
      split at accepted
      · split at accepted
        · cases accepted
        · rename_i same
          have later := inductionHypothesis accepted
          refine ⟨by rw [List.length_cons]; omega, fun other member => ?_⟩
          rcases List.mem_cons.mp member with rfl | behind
          · exact ascii_of_signExtend (not_not.mp same)
          · exact later.2 other behind
      · cases accepted

/-- An accepted string without zeros is the text of the name. -/
theorem text_of_namecmp {other : List (BitVec 8)} (nonzero : 0 ∉ other)
    (accepted : namecmp other name other.length = some true) : name.text = widen other := by
  rw [namecmp, List.take_length] at accepted
  rcases ascii_of_namecmpLoop accepted with ⟨short, ascii⟩
  have plain : ∀ ch ∈ other, ch ≠ 0 := fun ch member zero => nonzero (zero ▸ member)
  rw [namecmpLoop_eq other plain ascii short, List.drop_zero] at accepted
  exact of_decide_eq_true (Option.some.inj accepted)

theorem namecmp_of_text {other : List (BitVec 8)} (nonzero : 0 ∉ other)
    (ascii : ∀ ch ∈ other, ch.toNat < 128) (short : other.length < 256)
    (same : name.text = widen other) : namecmp other name other.length = some true := by
  have plain : ∀ ch ∈ other, ch ≠ 0 := fun ch member zero => nonzero (zero ▸ member)
  rw [namecmp, List.take_length, namecmpLoop_eq other plain ascii (by omega),
    List.drop_zero]
  exact congrArg some (decide_eq_true same)

theorem widen_inj {first second : List (BitVec 8)} (same : widen first = widen second) :
    first = second :=
  List.map_injective_iff.mpr (fun left right equal => by
    have value := congrArg BitVec.toNat equal
    rw [BitVec.toNat_setWidth_of_le (by decide), BitVec.toNat_setWidth_of_le (by decide)] at value
    exact BitVec.eq_of_toNat_eq value) same

/-- The text of a name that begins with a string and a zero ends at the first
zero of the string, or at that one. -/
theorem text_of_begins (begins : widen text ++ [0] <+: name.units) :
    name.text = widen (text.takeWhile fun ch => ch ≠ 0) := by
  rcases begins with ⟨rest, units⟩
  have zero_iff : ∀ ch : BitVec 8, ch.setWidth 16 = 0 ↔ ch = 0 := by decide
  have same : (fun unit : BitVec 16 => decide (unit ≠ 0)) ∘ (fun ch : BitVec 8 => ch.setWidth 16) =
      fun ch => decide (ch ≠ 0) := by
    funext ch
    exact decide_eq_decide.mpr (not_congr (zero_iff ch))
  rw [Name.text, ← units, List.append_assoc, List.singleton_append, widen]
  by_cases all : ∀ ch ∈ text, ch ≠ 0
  · rw [List.takeWhile_append_of_pos, List.takeWhile_cons_of_neg (by decide), List.append_nil,
      List.takeWhile_eq_self_iff.mpr]
    · rfl
    · exact fun ch member => decide_eq_true (all ch member)
    · intro unit member
      rcases List.mem_map.mp member with ⟨ch, inText, rfl⟩
      exact decide_eq_true (fun zero => all ch inText ((zero_iff ch).mp zero))
  · have stops : (List.takeWhile (fun unit : BitVec 16 => decide (unit ≠ 0))
        (text.map fun ch => ch.setWidth 16)).length ≠ (text.map fun ch => ch.setWidth 16).length := by
      intro whole
      refine all (fun ch member zero => ?_)
      have units := (List.takeWhile_prefix _).eq_of_length whole
      have nonzero := List.takeWhile_eq_self_iff.mp units _ (List.mem_map_of_mem member)
      exact of_decide_eq_true nonzero ((zero_iff ch).mpr zero)
    rw [List.takeWhile_append, if_neg stops, List.takeWhile_map, same, widen]

/-- A name that begins with a string and a zero shows exactly the strings
without zeros whose characters are not negative. -/
theorem showsName_iff (short : text.length < 256) :
    ShowsName name text ↔
      widen text ++ [0] <+: name.units ∧ ∀ ch ∈ text, ch ≠ 0 ∧ ch.toNat < 128 := by
  constructor
  · rintro ⟨begins, accepted, only⟩
    have prefixOf : text.takeWhile (fun ch => ch ≠ 0) <+: text := List.takeWhile_prefix _
    have ascii : ∀ ch ∈ text, ch.toNat < 128 := by
      rw [namecmp, List.take_length] at accepted
      exact (ascii_of_namecmpLoop accepted).2
    have nonzero : 0 ∉ text.takeWhile (fun ch => ch ≠ 0) := by
      intro member
      have kept := List.mem_takeWhile_imp member
      exact absurd kept (by decide)
    have shorter := only _ nonzero (namecmp_of_text nonzero
      (fun ch member => ascii ch (prefixOf.subset member))
      (Nat.lt_of_le_of_lt prefixOf.length_le short) (text_of_begins begins))
    refine ⟨begins, fun ch member => ⟨fun zero => nonzero ?_, ascii ch member⟩⟩
    rw [shorter, ← zero]
    exact member
  · rintro ⟨begins, plain⟩
    have nonzero : 0 ∉ text := fun member => (plain 0 member).1 rfl
    have same : name.text = widen text := by
      rw [text_of_begins begins, List.takeWhile_eq_self_iff.mpr]
      exact fun ch member => decide_eq_true (plain ch member).1
    refine ⟨begins, namecmp_of_text nonzero (fun ch member => (plain ch member).2) short same,
      fun other otherNonzero accepted => ?_⟩
    exact widen_inj ((text_of_namecmp otherNonzero accepted).symm.trans same)

end Namecmp

/-! ## What the loop writes -/

/-- The units of a buffer whose front has been overwritten. -/
theorem units_overwrite (name : Name) {front : List (BitVec 16)} (short : front.length ≤ 256) :
    (overwrite name 0 front).units = front ++ name.units.drop front.length := by
  have length : name.units.length = 256 := List.length_ofFn
  apply List.ext_getElem?
  intro k
  by_cases bound : k < 256
  · have unit : ∀ other : Name, other.units[k]? = some (other ⟨k, bound⟩) := fun other =>
      List.getElem?_ofFn.trans (dif_pos bound)
    rw [unit, overwrite]
    by_cases inFront : k < front.length
    · rw [if_pos (by simp only; omega), List.getElem?_append_left inFront, List.getElem?_eq_getElem inFront,
        List.getD_eq_getElem]
      rfl
    · rw [if_neg (by simp only; omega), List.getElem?_append_right (Nat.not_lt.mp inFront),
        List.getElem?_drop, Nat.add_sub_cancel' (Nat.not_lt.mp inFront), unit]
  · have whole : (overwrite name 0 front).units.length = 256 := List.length_ofFn
    rw [List.getElem?_eq_none (by omega), List.getElem?_eq_none]
    rw [List.length_append, List.length_drop]
    omega

section Entry

variable {entry : DirEntry} {base extension : List (BitVec 8)}

theorem takeWhile_padded {chars : List (BitVec 8)} (noSpace : ∀ ch ∈ chars, ch ≠ chr ' ')
    (count : Nat) :
    (chars ++ List.replicate count (chr ' ')).takeWhile (fun ch => ch ≠ chr ' ') = chars := by
  rw [List.takeWhile_append_of_pos (fun ch member => decide_eq_true (noSpace ch member)),
    List.takeWhile_replicate, if_neg (by decide), List.append_nil]

/-- The dot is always written. -/
theorem IsShortName.shortUnits_eq (short : IsShortName entry base extension) :
    shortUnits entry = widen (base ++ [chr '.'] ++ extension) := by
  rcases List.forall_mem_append.mp short.noSpace with ⟨inBase, inExtension⟩
  rw [shortUnits, short.baseBytes, short.extensionBytes, takeWhile_padded inBase,
    takeWhile_padded inExtension, widen]

/-- The name and its terminator stand in the buffer exactly when there is an
extension and the buffer held a zero behind it. -/
theorem IsShortName.begins_iff (short : IsShortName entry base extension) (prior : Name) :
    widen (dotted base extension) ++ [0] <+: (overwrite prior 0 (shortUnits entry)).units ↔
      extension ≠ [] ∧ prior (Fin.ofNat _ (base.length + 1 + extension.length)) = 0 := by
  have lengths := short.baseLength
  have extensionLength := short.extensionLength
  have written : (widen (base ++ [chr '.'] ++ extension)).length =
      base.length + 1 + extension.length := by
    simp only [widen, List.length_map, List.length_append, List.length_singleton]
  rw [short.shortUnits_eq, units_overwrite prior (by rw [written]; omega), written]
  by_cases empty : extension = []
  · -- The name ends in front of the dot.
    have dot : ¬ [(0 : BitVec 16)] <+: widen [chr '.'] ++ prior.units.drop (base.length + 1 + 0) := by
      rintro ⟨rest, same⟩
      exact absurd (List.cons.inj same).1 (by decide)
    subst empty
    refine iff_of_false (fun begins => dot ?_) (fun both => both.1 rfl)
    rw [dotted, if_pos rfl, List.append_nil, List.append_nil, widen, widen, List.map_append,
      List.append_assoc, List.prefix_append_right_inj] at begins
    exact begins
  · have name : dotted base extension = base ++ [chr '.'] ++ extension := by
      rw [dotted, if_neg empty, List.append_assoc, List.singleton_append]
    have bound : base.length + 1 + extension.length < 256 := by omega
    have index : (Fin.ofNat 256 (base.length + 1 + extension.length)) =
        ⟨base.length + 1 + extension.length, bound⟩ := Fin.ext (Nat.mod_eq_of_lt bound)
    rw [name, List.prefix_append_right_inj, drop_units bound, index]
    constructor
    · rintro ⟨rest, same⟩
      exact ⟨empty, (List.cons.inj same).1.symm⟩
    · rintro ⟨_, zero⟩
      exact ⟨_, congrArg (· :: _) zero.symm⟩

end Entry

section Iteration

variable {State : Type} {entries : Nat → DirEntry} {locals : Locals} {func : Callback State}
  {left i : Nat} {nameBuf : Name} {state : Driver × State}

/-- An iteration of the loop that meets a live entry passes it to the callback. -/
theorem enumerateLoop_live (notRecord : (entries i).attributes ≠ 0x0f)
    (notEnd : (entries i).fileName 0 ≠ 0)
    (notDeleted : (entries i).fileName 0 ≠ 0xe5 ∧ (entries i).fileName 0 ≠ 0x2e) (hasLfn : Bool) :
    enumerateLoop entries locals func (left + 1) i nameBuf hasLfn state = (do
      let (stop, state) ← func (parsedEntry locals (entries i) i nameBuf hasLfn) state
      if stop then some state
      else enumerateLoop entries locals func left (i + 1) nameBuf false state) := by
  rw [enumerateLoop]
  simp only [if_neg notRecord, if_neg notEnd, if_neg (not_or.mpr notDeleted)]

/-- The name that is passed on for a short entry is shown exactly when it has an
extension, the local variable held a zero behind it, and no character is zero
or not ASCII. -/
theorem IsShortName.shown_iff {entry : DirEntry} {base extension : List (BitVec 8)}
    (short : IsShortName entry base extension) (locals : Locals) (i : Nat) (nameBuf : Name) :
    ShowsName (parsedEntry locals entry i nameBuf false).actualFileName (dotted base extension) ↔
      (extension ≠ [] ∧ locals.fileName i (Fin.ofNat _ (base.length + 1 + extension.length)) = 0) ∧
        ∀ ch ∈ base ++ extension, ch ≠ 0 ∧ ch.toNat < 128 := by
  have lengths := short.baseLength
  have extensionLength := short.extensionLength
  have fits : (dotted base extension).length < 256 := by
    unfold dotted
    split <;> simp only [List.length_append, List.length_nil, List.length_cons] <;> omega
  rw [showsName_iff fits]
  refine (and_congr_left (fun _ => short.begins_iff (locals.fileName i))).trans
    (and_congr_right (fun begins => ?_))
  rw [dotted, if_neg begins.1]
  simp only [List.forall_mem_append, List.forall_mem_cons]
  exact and_congr_right (fun _ => and_iff_right (by decide))

/-- A live entry without long-name records is passed to the callback, and this
is when its name is shown. -/
theorem enumerateLoop_shows_iff {base extension : List (BitVec 8)}
    (short : IsShortName (entries i) base extension)
    (notRecord : (entries i).attributes ≠ 0x0f) (notEnd : (entries i).fileName 0 ≠ 0)
    (notDeleted : (entries i).fileName 0 ≠ 0xe5 ∧ (entries i).fileName 0 ≠ 0x2e) :
    enumerateLoop entries locals func (left + 1) i nameBuf false state = (do
        let (stop, state) ← func (parsedEntry locals (entries i) i nameBuf false) state
        if stop then some state
        else enumerateLoop entries locals func left (i + 1) nameBuf false state) ∧
      (ShowsName (parsedEntry locals (entries i) i nameBuf false).actualFileName
          (dotted base extension) ↔
        (extension ≠ [] ∧
          locals.fileName i (Fin.ofNat _ (base.length + 1 + extension.length)) = 0) ∧
          ∀ ch ∈ base ++ extension, ch ≠ 0 ∧ ch.toNat < 128) :=
  ⟨enumerateLoop_live notRecord notEnd notDeleted false, short.shown_iff locals i nameBuf⟩

end Iteration

/-- The entry of a short name, all other fields zero. -/
def entryNamed (bytes : List (BitVec 8)) : DirEntry := fun offset => bytes.getD offset 0

theorem entryNamed_dotted : IsShortName (entryNamed (textOf "A       C  ")) [chr 'A'] [chr 'C'] :=
  ⟨by decide, by decide, by decide, by decide, by decide⟩

def blankLocals : Locals := ⟨fun _ => 0, fun _ _ => 0⟩

def blankDriver : Driver :=
  ⟨⟨fun _ => 0, fun _ => FatBlock.zero, ⟨1, 1, 1, 1, 2⟩⟩, fun _ => blankLocals⟩

theorem enumerateLoop_shows_dotted :
    enumerateLoop (fun _ => entryNamed (textOf "A       C  ")) blankLocals
        (fun _ state => some (true, state)) 1 0 (fun _ => 0) false (blankDriver, ()) =
      some (blankDriver, ()) ∧
      ShowsName (parsedEntry blankLocals (entryNamed (textOf "A       C  ")) 0 (fun _ => 0)
        false).actualFileName (dotted [chr 'A'] [chr 'C']) := by
  have shows_ := @enumerateLoop_shows_iff Unit (fun _ => entryNamed (textOf "A       C  ")) blankLocals
    (fun _ state => some (true, state)) 0 0 (fun _ => 0) (blankDriver, ()) [chr 'A'] [chr 'C']
    entryNamed_dotted (by decide) (by decide) (by decide)
  exact ⟨shows_.1, shows_.2.mpr ⟨⟨by decide, rfl⟩, by decide⟩⟩

/-- A name without an extension gets a dot, whatever the local variable held. -/
theorem shortName_not_shown :
    ¬ ∀ (entry : DirEntry) (base extension : List (BitVec 8)) (locals : Locals) (i : Nat)
      (nameBuf : Name), IsShortName entry base extension → entry.attributes ≠ 0x0f →
      entry.fileName 0 ≠ 0 → entry.fileName 0 ≠ 0xe5 ∧ entry.fileName 0 ≠ 0x2e →
      ShowsName (parsedEntry locals entry i nameBuf false).actualFileName (dotted base extension) := by
  intro shown
  have short : IsShortName (entryNamed (textOf "INIT       ")) (textOf "INIT") [] :=
    ⟨by decide, by decide, by decide, by decide, by decide⟩
  have shows_ := shown (entryNamed (textOf "INIT       ")) (textOf "INIT") [] blankLocals 0 (fun _ => 0)
    short (by decide) (by decide) (by decide)
  exact ((short.shown_iff blankLocals 0 fun _ => 0).mp shows_).1.1 rfl

end Fat

end WeakOS

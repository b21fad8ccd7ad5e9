/-
Relative imports: `resolve_name` and `import_module_level_object`. The search
for the dot that ends a component finds the one it found before, so that no
more than one component is taken off; the length of the package is counted in
code points and used in bytes.
-/
import Pylang.Runtime.Utf8

namespace Pylang.Runtime.Import

inductive Object
  | none
  | str (value : Bytes)
  | other (address : Nat)
  deriving DecidableEq

/-- `as<PyString>`, with the value. -/
def Object.asStr : Object → Option Bytes
  | .str value => some value
  | .none | .other _ => Option.none

inductive Error
  | value (text : String)
  | type (text : String)
  | import_ (text : String)
  /-- A name that is "not in sys.modules as expected". -/
  | key (name : Bytes)
  /-- Raised by what is called. -/
  | raised (exception : Nat)

/-- The variables of a module that are read. -/
structure Globals where
  package : Option Object
  spec : Option Object
  name : Option Object
  hasPath : Bool

/-- What objects do: the attribute `parent`, `eq`. -/
structure Host where
  parent : Object → Except Error Object
  eq : Object → Object → Except Error Bool

/-- `.` -/
def dot : UInt8 := 46

/-- `std::string::find_last_of` of a character, from a position down; it may be the position itself. -/
def findLastOf (c : UInt8) (value : Bytes) : Nat → Option Nat
  | 0 => if value[0]? = some c then some 0 else none
  | pos + 1 => if value[pos + 1]? = some c then some (pos + 1) else findLastOf c value pos

/-- The package of a module with neither `__package__` nor `__spec__`. -/
def packageOfName (package : Object) (globals : Globals) : Except Error Bytes :=
  match globals.name with
  | none => .error (.value "'__name__' not in globals")
  | some name =>
    -- the object that is tested is `package`, which is `None`
    match package.asStr with
    | none => .error (.type "__name__ must be a string")
    | some _ =>
      let value := name.asStr.getD []
      if globals.hasPath then .ok value
      else match findLastOf dot value value.length with
        | none => .error (.import_ "attempted relative import with no known parent package")
        | some pos => .ok (value.drop pos)

def packageOf (host : Host) (globals : Globals) : Except Error Bytes :=
  match globals.package, globals.spec with
  | none, _ => .error (.value "'__package__' not in globals")
  | some _, none => .error (.value "'__spec__' not in globals")
  | some (.str package), some spec =>
    if spec = .none then .ok package
    else do
      let parent ← host.parent spec
      let _ ← host.eq (.str package) parent
      return package
  | some (.other _), some _ => .error (.type "package must be a string")
  | some .none, some .none => packageOfName .none globals
  | some .none, some spec => do
    let parent ← host.parent spec
    match parent.asStr with
    | none => .error (.type "__spec__.parent must be a string")
    | some package => return package

/-- The loop over the levels. -/
def stripLevels (package : Bytes) : Nat → Nat → Option Nat
  | 0, lastDot => some lastDot
  | n + 1, lastDot => (findLastOf dot package lastDot).bind (stripLevels package n)

/-- `none` where `size` reads past the end of a code point that was cut. -/
def resolveName (host : Host) (name : Bytes) (globals : Option Globals) (level : Nat) : Option (Except Error Bytes) :=
  match globals with
  | none => some (.error (.value "'__name__' not in globals"))
  | some globals =>
    match packageOf host globals with
    | .error e => some (.error e)
    | .ok package => do
      let lastDot ← size package
      if lastDot = 0 then return .error (.import_ "attempted relative import with no known parent package")
      match stripLevels package (level - 1) lastDot with
      | none => return .error (.import_ "attempted relative import beyond top-level package")
      | some lastDot =>
        let base := package.take lastDot
        let length ← size base
        if length = 0 then return .ok base
        if name.isEmpty then return .ok base
        return .ok (base ++ dot :: name)

/-- The modules there are, by their addresses, in a state of the program. -/
structure Modules (σ : Type) where
  host : Host
  get : σ → Bytes → Option Nat
  ensureInitialized : σ → Nat → Bytes → Except Error σ
  findAndLoad : σ → Bytes → Except Error (Nat × σ)
  isTrue : Object → Except Error Bool
  handleFromlist : σ → Nat → Object → Except Error Nat

variable {σ : Type}

/-- The module of an absolute name, and the state that is left. -/
def Modules.load (modules : Modules σ) (s : σ) (name : Bytes) : Except Error (Nat × σ) :=
  match modules.get s name with
  | some module => (modules.ensureInitialized s module name).map fun s => (module, s)
  | none => modules.findAndLoad s name

def Modules.hasFrom (modules : Modules σ) (fromlist : Option Object) : Except Error Bool :=
  fromlist.elim (.ok false) modules.isTrue

def importModuleLevelObject (modules : Modules σ) (s : σ) (name : Bytes) (globals : Option Globals)
    (fromlist : Option Object) (level : Nat) : Option (Except Error Nat) :=
  let absoluteName :=
    if 0 < level then resolveName modules.host name globals level
    else (size name).map fun length => if length = 0 then .error (.value "Empty module name") else .ok name
  match absoluteName with
  | none => none
  | some (.error e) => some (.error e)
  | some (.ok absoluteName) =>
    match modules.load s absoluteName with
    | .error e => some (.error e)
    | .ok (module, s) =>
      match modules.hasFrom fromlist with
      | .error e => some (.error e)
      | .ok true => some (modules.handleFromlist s module (fromlist.getD .none))
      | .ok false =>
        if _hdot : dot ∈ name then
          let it := name.idxOf dot
          if level = 0 then importModuleLevelObject modules s (name.take it) none none 0
          else
            let toReturn := absoluteName.take (name.length - it)
            match modules.get s toReturn with
            | none => some (.error (.key toReturn))
            | some module => some (.ok module)
        else some (.ok module)
termination_by name.length
decreasing_by
  rw [List.length_take]
  exact Nat.lt_of_le_of_lt (Nat.min_le_left _ _) (List.idxOf_lt_length_of_mem _hdot)

/-! ## What is asked -/

/-- Components with dots between them. -/
def dotted (parts : List (List Char)) : List Char := ['.'].intercalate parts

/-- The name of a package. -/
structure Package where
  parts : List (List Char)
  ne : parts ≠ []
  good : ∀ part ∈ parts, part ≠ [] ∧ '.' ∉ part

/-- The components of the package that a module's variables give. -/
inductive Given (host : Host) (globals : Globals) : List (List Char) → Prop
  | package {spec : Object} (p : Package) : globals.package = some (.str (utf8 (dotted p.parts))) →
      globals.spec = some spec →
      (spec = .none ∨ ∃ parent b, host.parent spec = .ok parent ∧ host.eq (.str (utf8 (dotted p.parts))) parent = .ok b) →
      Given host globals p.parts
  | spec {spec : Object} (p : Package) : globals.package = some .none → globals.spec = some spec → spec ≠ .none →
      host.parent spec = .ok (.str (utf8 (dotted p.parts))) → Given host globals p.parts
  | name (p : Package) : globals.package = some .none → globals.spec = some .none →
      globals.name = some (.str (utf8 (dotted p.parts))) →
      Given host globals (if globals.hasPath then p.parts else p.parts.dropLast)

/-- The components that are left. -/
def above (parts : List (List Char)) (level : Nat) : List (List Char) := parts.take (parts.length - (level - 1))

def absolute (parts : List (List Char)) (name : List Char) : List Char :=
  if name = [] then dotted parts else dotted parts ++ '.' :: name

/-- What `resolve_name` is asked to give. -/
def Resolved (parts : List (List Char)) (level : Nat) (name : List Char) (result : Option (Except Error Bytes)) : Prop :=
  if level ≤ parts.length then result = some (.ok (utf8 (absolute (above parts level) name)))
  else ∃ text, result = some (.error (.import_ text))

/-- What an import without a fromlist is asked to give for `head.tail`: if the absolute name can be imported, the module
named by its part before the tail, where there is one. -/
def ImportRight (host : Host) (globals : Globals) (parts : List (List Char)) (level : Nat) (head tail : List Char) : Prop :=
  ∀ (σ : Type) (modules : Modules σ) (s s' : σ) (fromlist : Option Object) (m m' : Nat), modules.host = host →
    modules.hasFrom fromlist = .ok false →
    modules.load s (utf8 (absolute (above parts level) (head ++ '.' :: tail))) = .ok (m, s') →
    modules.get s' (utf8 (dotted (above parts level) ++ '.' :: head)) = some m' →
    importModuleLevelObject modules s (utf8 (head ++ '.' :: tail)) (some globals) fromlist level = some (.ok m')

/-- Both, for a name. -/
def RelativeRight (host : Host) (globals : Globals) (parts : List (List Char)) (level : Nat) (name : List Char) : Prop :=
  Resolved parts level name (resolveName host (utf8 name) (some globals) level) ∧
    (level ≤ parts.length → ∀ head tail, name = head ++ '.' :: tail → '.' ∉ head →
      ImportRight host globals parts level head tail)

/-- How many dots the search sees: those among the first bytes, one more than there are characters. -/
def dotsSeen (package : List Char) : Nat := ((utf8 package).take (package.length + 1)).count dot

/-- Where the code finds the right package. -/
def Found (globals : Globals) (parts : List (List Char)) (level : Nat) : Prop :=
  ¬(globals.package = some .none ∧ globals.spec = some .none) ∧
    if level = 1 then ∀ c ∈ dotted parts, isAscii c = true else dotsSeen (dotted parts) = parts.length - (level - 1)

/-- Where the part that is cut off has the length of what is left. -/
def Halved (parts : List (List Char)) (level : Nat) (name : List Char) : Prop :=
  level ≤ parts.length → ∀ head tail, name = head ++ '.' :: tail → '.' ∉ head →
    (utf8 tail).length = (utf8 (dotted (above parts level))).length + (utf8 head).length

/-! ## The search -/

variable {value : Bytes} {c : UInt8} {pos i : Nat}

theorem findLastOf_some (h : findLastOf c value pos = some i) :
    i ≤ pos ∧ value[i]? = some c ∧ ∀ j, i < j → j ≤ pos → value[j]? ≠ some c := by
  induction pos with
  | zero =>
    unfold findLastOf at h
    split at h
    next hc =>
      cases h
      exact ⟨Nat.le_refl 0, hc, fun j hi hj => absurd hi (by omega)⟩
    next => cases h
  | succ pos ih =>
    unfold findLastOf at h
    split at h
    next hc =>
      cases h
      exact ⟨Nat.le_refl _, hc, fun j hi hj => absurd hi (by omega)⟩
    next hc =>
      obtain ⟨hle, hi, hafter⟩ := ih h
      refine ⟨by omega, hi, fun j hij hj => ?_⟩
      by_cases hlast : j = pos + 1
      · exact hlast ▸ hc
      · exact hafter j hij (by omega)

theorem findLastOf_none (h : findLastOf c value pos = none) : ∀ j ≤ pos, value[j]? ≠ some c := by
  induction pos with
  | zero =>
    intro j hj
    obtain rfl := Nat.le_zero.mp hj
    unfold findLastOf at h
    split at h
    next => cases h
    next hc => exact hc
  | succ pos ih =>
    unfold findLastOf at h
    split at h
    next => cases h
    next hc =>
      intro j hj
      by_cases hlast : j = pos + 1
      · exact hlast ▸ hc
      · exact ih h j (by omega)

theorem findLastOf_self (h : value[i]? = some c) : findLastOf c value i = some i := by
  cases i <;> exact if_pos h

theorem stripLevels_succ (n lastDot : Nat) : stripLevels value (n + 1) lastDot = findLastOf dot value lastDot := by
  unfold stripLevels
  cases h : findLastOf dot value lastDot with
  | none => rfl
  | some pos =>
    have hself := findLastOf_self (findLastOf_some h).2.1
    show stripLevels value n pos = some pos
    induction n with
    | zero => rfl
    | succ n ih =>
      unfold stripLevels
      rw [hself]
      exact ih

/-! ## Components -/

variable {parts : List (List Char)}

theorem dotted_cons {part : List Char} (h : parts ≠ []) : dotted (part :: parts) = part ++ '.' :: dotted parts := by
  cases parts with
  | nil => exact absurd rfl h
  | cons part' parts => simp [dotted, List.intercalate]

theorem dotted_singleton (part : List Char) : dotted [part] = part := by simp [dotted, List.intercalate]

/-- What stands before a dot is some of the components. -/
theorem dotted_split (hgood : ∀ part ∈ parts, '.' ∉ part) {x y : List Char} (h : dotted parts = x ++ '.' :: y) :
    x.count '.' + 1 < parts.length ∧ x = dotted (parts.take (x.count '.' + 1)) := by
  induction parts generalizing x with
  | nil => simp [dotted] at h
  | cons part parts ih =>
    obtain ⟨hpart, hgood⟩ := List.forall_mem_cons.mp hgood
    by_cases hnil : parts = []
    · subst hnil
      rw [dotted_singleton] at h
      exact absurd (h ▸ List.mem_append_right _ List.mem_cons_self) hpart
    have hpos := List.length_pos_iff.mpr hnil
    rw [dotted_cons hnil] at h
    rcases List.append_eq_append_iff.mp h with ⟨x', rfl, hx'⟩ | ⟨y', hy', hy⟩
    · cases x' with
      | nil =>
        rw [List.append_nil, List.count_eq_zero.mpr hpart]
        exact ⟨by rw [List.length_cons]; omega, (dotted_singleton part).symm⟩
      | cons d x' =>
        obtain ⟨rfl, hrest⟩ := List.cons.inj hx'
        obtain ⟨hlt, heq⟩ := ih hgood hrest
        have hcount : (part ++ '.' :: x').count '.' = x'.count '.' + 1 := by
          rw [List.count_append, List.count_eq_zero.mpr hpart, List.count_cons_self, Nat.zero_add]
        have htake : parts.take (x'.count '.' + 1) ≠ [] := by
          rw [ne_eq, List.take_eq_nil_iff]
          exact not_or.mpr ⟨by omega, hnil⟩
        rw [hcount, List.length_cons, List.take_succ_cons, dotted_cons htake, ← heq]
        exact ⟨by omega, rfl⟩
    · cases y' with
      | nil =>
        rw [List.append_nil] at hy'
        subst hy'
        rw [List.count_eq_zero.mpr hpart]
        exact ⟨by rw [List.length_cons]; omega, (dotted_singleton part).symm⟩
      | cons d y' =>
        obtain ⟨rfl, -⟩ := List.cons.inj hy
        exact absurd (hy' ▸ List.mem_append_right _ List.mem_cons_self) hpart

theorem count_dotted (hgood : ∀ part ∈ parts, '.' ∉ part) : (dotted parts).count '.' = parts.length - 1 := by
  induction parts with
  | nil => simp [dotted]
  | cons part parts ih =>
    obtain ⟨hpart, hgood⟩ := List.forall_mem_cons.mp hgood
    by_cases hnil : parts = []
    · subst hnil
      rw [dotted_singleton, List.count_eq_zero.mpr hpart]
      rfl
    · have hpos := List.length_pos_iff.mpr hnil
      rw [dotted_cons hnil, List.count_append, List.count_eq_zero.mpr hpart, List.count_cons_self, ih hgood,
        List.length_cons]
      omega

theorem dotted_take_inj (hgood : ∀ part ∈ parts, '.' ∉ part) {m n : Nat} (hm : 0 < m) (hn : 0 < n)
    (hm' : m ≤ parts.length) (hn' : n ≤ parts.length) : dotted (parts.take m) = dotted (parts.take n) ↔ m = n := by
  refine ⟨fun h => ?_, fun h => h ▸ rfl⟩
  have hcount (k : Nat) : (dotted (parts.take k)).count '.' = (parts.take k).length - 1 :=
    count_dotted fun part hpart => hgood part (List.mem_of_mem_take hpart)
  have hboth := (hcount m).symm.trans ((congrArg (List.count '.') h).trans (hcount n))
  rw [List.length_take, List.length_take] at hboth
  omega

theorem dotted_ne_nil (hne : parts ≠ []) (hgood : ∀ part ∈ parts, part ≠ []) : dotted parts ≠ [] := by
  cases parts with
  | nil => exact absurd rfl hne
  | cons part parts =>
    have hpart := hgood part List.mem_cons_self
    by_cases hnil : parts = []
    · rw [hnil, dotted_singleton]
      exact hpart
    · rw [dotted_cons hnil]
      exact List.append_ne_nil_of_left_ne_nil hpart _

theorem eq_absolute_iff {x name : List Char} :
    (if name = [] then x else x ++ '.' :: name) = absolute parts name ↔ x = dotted parts := by
  unfold absolute
  split
  next => exact Iff.rfl
  next => exact List.append_left_inj _

/-! ## The dots of a text -/

theorem encode_dot : String.utf8EncodeChar '.' = [dot] := by decide

theorem not_continuation_dot : ¬ IsContinuation dot := by
  unfold IsContinuation
  decide

theorem count_dot (s : List Char) : (utf8 s).count dot = s.count '.' := by
  induction s with
  | nil => rfl
  | cons c s ih =>
    rw [utf8_cons, List.count_append, ih]
    by_cases hc : c = '.'
    · subst hc
      rw [encode_dot, List.count_cons_self, List.count_cons_self, List.count_nil, Nat.add_comm, Nat.zero_add]
    · rw [List.count_cons_of_ne hc, List.count_eq_zero.mpr, Nat.zero_add]
      intro hmem
      cases hascii : isAscii c with
      | false => exact absurd (utf8EncodeChar_not_ascii hascii dot hmem) (by decide)
      | true =>
        rw [utf8EncodeChar_ascii hascii, List.mem_singleton] at hmem
        rw [isAscii, decide_eq_true_eq] at hascii
        have hnat : c.toNat = '.'.toNat := by
          have h := congrArg UInt8.toNat hmem
          rw [toNat_ofNat (by omega)] at h
          exact h.symm
        exact hc (toNat_injective hnat)

variable {t : List Char}

theorem dotsSeen_of_some (h : findLastOf dot (utf8 t) t.length = some pos) :
    ∃ x y, t = x ++ '.' :: y ∧ (utf8 t).take pos = utf8 x ∧ dotsSeen t = x.count '.' + 1 := by
  obtain ⟨hle, hat, hafter⟩ := findLastOf_some h
  obtain ⟨hlt, hdot⟩ := List.getElem?_eq_some_iff.mp hat
  have hvalue : utf8 t = (utf8 t).take pos ++ dot :: (utf8 t).drop (pos + 1) := by
    rw [← hdot, List.cons_getElem_drop_succ, List.take_append_drop]
  obtain ⟨x, y, rfl, hx, hy⟩ := utf8_boundary not_continuation_dot hvalue
  cases y with
  | nil => cases hy
  | cons c y =>
    have hfirst : utf8 ['.'] <+: utf8 (c :: y) := by
      rw [← hy, utf8_cons, encode_dot]
      exact List.prefix_append _ _
    obtain ⟨rfl, -⟩ := List.cons_prefix_cons.mp (utf8_isPrefix.mp hfirst)
    refine ⟨x, y, rfl, hx, ?_⟩
    -- no dot is seen behind the one that is found
    have hrest : (((utf8 (x ++ '.' :: y)).drop (pos + 1)).take ((x ++ '.' :: y).length - pos)).count dot = 0 := by
      refine List.count_eq_zero.mpr fun hmem => ?_
      obtain ⟨k, hk, hget⟩ := List.getElem_of_mem hmem
      rw [List.length_take] at hk
      refine hafter (pos + 1 + k) (by omega) (by omega) ?_
      rw [← hget, List.getElem_take, List.getElem_drop]
      exact List.getElem?_eq_getElem _
    have hlength : ((utf8 (x ++ '.' :: y)).take pos).length = pos := by
      rw [List.length_take]
      omega
    unfold dotsSeen
    rw [hvalue, List.take_append, hlength, List.take_of_length_le (by omega),
      show (x ++ '.' :: y).length + 1 - pos = (x ++ '.' :: y).length - pos + 1 by omega, List.take_succ_cons,
      List.count_append, List.count_cons_self, hrest, hx, count_dot]

theorem dotsSeen_of_none (h : findLastOf dot (utf8 t) t.length = none) : dotsSeen t = 0 := by
  refine List.count_eq_zero.mpr fun hmem => ?_
  obtain ⟨k, hk, hget⟩ := List.getElem_of_mem hmem
  rw [List.length_take] at hk
  refine findLastOf_none h k (by omega) ?_
  rw [← hget, List.getElem_take]
  exact List.getElem?_eq_getElem _

/-! ## `resolve_name` -/

variable {host : Host} {globals : Globals} {level : Nat} {name : List Char}

/-- What is made of the part of the package that is left. -/
def joined (base name : Bytes) : Option (Except Error Bytes) :=
  (size base).map fun length => .ok (if length = 0 ∨ name = [] then base else base ++ dot :: name)

theorem joined_utf8 {base : List Char} (h : base ≠ []) :
    joined (utf8 base) (utf8 name) = some (.ok (utf8 (if name = [] then base else base ++ '.' :: name))) := by
  have hname : utf8 name = [] ↔ name = [] := utf8_injective.eq_iff' rfl
  have hlength : ¬ base.length = 0 := fun h' => h (List.length_eq_zero_iff.mp h')
  unfold joined
  rw [size_utf8, Option.map_some]
  simp only [hname, hlength, false_or]
  by_cases hnil : name = []
  · rw [if_pos hnil, if_pos hnil]
  · rw [if_neg hnil, if_neg hnil, utf8_append, utf8_cons, encode_dot]
    rfl

theorem resolveName_eq (hpackage : packageOf host globals = .ok (utf8 t)) (ht : t ≠ []) (name : Bytes) :
    resolveName host name (some globals) level = match stripLevels (utf8 t) (level - 1) t.length with
      | none => some (.error (.import_ "attempted relative import beyond top-level package"))
      | some lastDot => joined ((utf8 t).take lastDot) name := by
  have hlength : ¬ t.length = 0 := fun h => ht (List.length_eq_zero_iff.mp h)
  unfold resolveName joined
  simp only [hpackage, size_utf8, Option.bind_eq_bind, Option.bind_some, if_neg hlength]
  cases stripLevels (utf8 t) (level - 1) t.length with
  | none => rfl
  | some lastDot =>
    dsimp only
    cases size ((utf8 t).take lastDot) with
    | none => rfl
    | some length =>
      rw [Option.bind_some, Option.map_some]
      by_cases hzero : length = 0
      · rw [if_pos hzero, if_pos (.inl hzero)]
        rfl
      · rw [if_neg hzero]
        cases name with
        | nil => exact congrArg some (congrArg Except.ok (if_pos (.inr rfl)).symm)
        | cons b name => exact congrArg some (congrArg Except.ok (if_neg (not_or.mpr ⟨hzero, nofun⟩)).symm)

theorem joined_whole (hne : t ≠ []) : joined ((utf8 t).take t.length) (utf8 name) =
    some (.ok (utf8 (if name = [] then t else t ++ '.' :: name))) ↔ ∀ c ∈ t, isAscii c = true := by
  have hle := length_le_utf8 t
  rw [← length_utf8_eq_iff]
  constructor
  · intro h
    unfold joined at h
    obtain ⟨length, -, heq⟩ := Option.map_eq_some_iff.mp h
    have hbytes := congrArg List.length (Except.ok.inj heq)
    have hname : utf8 name = [] ↔ name = [] := utf8_injective.eq_iff' rfl
    by_cases hnil : name = []
    · rw [if_pos hnil, if_pos (.inr (hname.mpr hnil)), List.length_take] at hbytes
      omega
    · rw [if_neg hnil, utf8_append, List.length_append, utf8_cons, encode_dot, List.length_append] at hbytes
      split at hbytes
      next =>
        rw [List.length_take] at hbytes
        omega
      next =>
        rw [List.length_append, List.length_take, List.length_cons, List.length_singleton] at hbytes
        omega
  · intro h
    rw [List.take_of_length_le (Nat.le_of_eq h)]
    exact joined_utf8 hne

theorem Package.dotted_ne_nil (p : Package) : dotted p.parts ≠ [] :=
  Import.dotted_ne_nil p.ne fun part hpart => (p.good part hpart).1

theorem resolved_iff (p : Package) (hpackage : packageOf host globals = .ok (utf8 (dotted p.parts))) (hlevel : 1 ≤ level) :
    Resolved p.parts level name (resolveName host (utf8 name) (some globals) level) ↔
      if level = 1 then ∀ c ∈ dotted p.parts, isAscii c = true
      else dotsSeen (dotted p.parts) = p.parts.length - (level - 1) := by
  have hpos := List.length_pos_iff.mpr p.ne
  have hgood : ∀ part ∈ p.parts, '.' ∉ part := fun part hpart => (p.good part hpart).2
  rw [resolveName_eq hpackage p.dotted_ne_nil]
  unfold Resolved
  by_cases hone : level = 1
  · subst hone
    have habove : above p.parts 1 = p.parts := List.take_of_length_le (Nat.le_of_eq rfl)
    rw [if_pos (show 1 ≤ p.parts.length from hpos), if_pos rfl, habove]
    exact joined_whole p.dotted_ne_nil
  have hstrip : stripLevels (utf8 (dotted p.parts)) (level - 1) (dotted p.parts).length =
      findLastOf dot (utf8 (dotted p.parts)) (dotted p.parts).length := by
    rw [show level - 1 = level - 2 + 1 by omega, stripLevels_succ]
  rw [if_neg hone, hstrip]
  cases hfind : findLastOf dot (utf8 (dotted p.parts)) (dotted p.parts).length with
  | none =>
    rw [dotsSeen_of_none hfind]
    split
    next hle => exact iff_of_false nofun (by omega)
    next hle => exact iff_of_true ⟨_, rfl⟩ (by omega)
  | some pos =>
    obtain ⟨x, y, htext, htake, hdots⟩ := dotsSeen_of_some hfind
    obtain ⟨hlt, hx⟩ := dotted_split hgood htext
    have hne : x ≠ [] := by
      rw [hx]
      refine Import.dotted_ne_nil (fun hnil => ?_) fun part hpart => (p.good part (List.mem_of_mem_take hpart)).1
      rcases List.take_eq_nil_iff.mp hnil with h | h
      · cases h
      · exact p.ne h
    rw [hdots]
    dsimp only
    rw [htake, joined_utf8 hne]
    split
    next hle =>
      rw [← dotted_take_inj hgood (by omega) (by omega) (by omega) (by omega), ← hx]
      show some (Except.ok (utf8 _)) = some (.ok (utf8 _)) ↔ _
      rw [Option.some_inj, Except.ok.injEq, utf8_injective.eq_iff]
      exact eq_absolute_iff
    next hle =>
      refine iff_of_false (fun h => ?_) (by omega)
      obtain ⟨text, h⟩ := h
      cases h

/-! ## Imports -/

variable {σ : Type} {modules : Modules σ} {s s' : σ} {head tail : List Char} {fromlist : Option Object}

theorem utf8_dotted_name (head tail : List Char) : utf8 (head ++ '.' :: tail) = utf8 head ++ dot :: utf8 tail := by
  rw [utf8_append, utf8_cons, encode_dot]
  rfl

theorem idxOf_dot (hhead : '.' ∉ head) : (utf8 (head ++ '.' :: tail)).idxOf dot = (utf8 head).length := by
  have hnot : dot ∉ utf8 head := by
    rw [← List.count_eq_zero, count_dot]
    exact List.count_eq_zero.mpr hhead
  rw [utf8_dotted_name, List.idxOf_append_of_notMem hnot, List.idxOf_cons_self, Nat.add_zero]

theorem import_dotted {absoluteName : Bytes} {m : Nat} (hlevel : 1 ≤ level) (hhead : '.' ∉ head)
    (hresolve : resolveName modules.host (utf8 (head ++ '.' :: tail)) (some globals) level = some (.ok absoluteName))
    (hload : modules.load s absoluteName = .ok (m, s')) (hfrom : modules.hasFrom fromlist = .ok false) :
    importModuleLevelObject modules s (utf8 (head ++ '.' :: tail)) (some globals) fromlist level =
      match modules.get s' (absoluteName.take ((utf8 tail).length + 1)) with
      | none => some (.error (.key (absoluteName.take ((utf8 tail).length + 1))))
      | some module => some (.ok module) := by
  have hmem : dot ∈ utf8 (head ++ '.' :: tail) := by
    rw [utf8_dotted_name]
    exact List.mem_append_right _ List.mem_cons_self
  have hlength : (utf8 (head ++ '.' :: tail)).length - (utf8 head).length = (utf8 tail).length + 1 := by
    rw [utf8_dotted_name, List.length_append, List.length_cons]
    omega
  rw [importModuleLevelObject]
  simp only [if_pos (show 0 < level from hlevel), hresolve, hload, hfrom, dif_pos hmem, if_neg (Nat.ne_of_gt hlevel),
    idxOf_dot hhead, hlength]

/-- The modules of a program that has one under every name. -/
def everywhere (host : Host) (name : Bytes) : Modules Unit where
  host := host
  get _ other := some (if other = name then 1 else 0)
  ensureInitialized s _ _ := .ok s
  findAndLoad s _ := .ok (0, s)
  isTrue _ := .ok false
  handleFromlist _ module _ := .ok module

theorem importRight_iff (hlevel : 1 ≤ level) (hhead : '.' ∉ head)
    (hresolve : resolveName host (utf8 (head ++ '.' :: tail)) (some globals) level =
      some (.ok (utf8 (absolute (above parts level) (head ++ '.' :: tail))))) :
    ImportRight host globals parts level head tail ↔
      (utf8 tail).length = (utf8 (dotted (above parts level))).length + (utf8 head).length := by
  generalize hbase : dotted (above parts level) = base
  have habsolute : utf8 (absolute (above parts level) (head ++ '.' :: tail)) = utf8 (base ++ '.' :: head) ++ dot :: utf8 tail := by
    unfold absolute
    rw [if_neg (List.append_ne_nil_of_right_ne_nil _ (List.cons_ne_nil _ _)), hbase, ← utf8_dotted_name]
    exact congrArg utf8 (List.append_assoc base ('.' :: head) ('.' :: tail)).symm
  have hfront : (utf8 (base ++ '.' :: head)).length = (utf8 base).length + (utf8 head).length + 1 := by
    rw [utf8_dotted_name, List.length_append, List.length_cons]
    omega
  have htake : (utf8 (base ++ '.' :: head) ++ dot :: utf8 tail).take ((utf8 tail).length + 1) = utf8 (base ++ '.' :: head) ↔
      (utf8 tail).length = (utf8 base).length + (utf8 head).length := by
    constructor
    · intro h
      have hlength := congrArg List.length h
      rw [List.length_take, List.length_append, List.length_cons, hfront] at hlength
      omega
    · intro h
      rw [h, ← hfront, List.take_left]
  unfold ImportRight
  rw [habsolute] at hresolve
  rw [habsolute, hbase, ← htake]
  constructor
  · intro h
    have hgives := h Unit (everywhere host (utf8 (base ++ '.' :: head))) () () none _ 1 rfl rfl rfl (congrArg some (if_pos rfl))
    rw [import_dotted hlevel hhead hresolve rfl rfl] at hgives
    have hone := Except.ok.inj (Option.some.inj hgives)
    by_contra hne
    rw [if_neg hne] at hone
    cases hone
  · intro h σ modules s s' fromlist m m' hhost hfrom hload hget
    subst hhost
    rw [import_dotted hlevel hhead hresolve hload hfrom, h, hget]

/-! ## Where both are right -/

/-- The package is found but where there is only `__name__`. -/
theorem packageOf_given (h : Given host globals parts) :
    (globals.package = some .none ∧ globals.spec = some .none ∧
      packageOf host globals = .error (.type "__name__ must be a string")) ∨
    ¬(globals.package = some .none ∧ globals.spec = some .none) ∧
      ∃ p : Package, parts = p.parts ∧ packageOf host globals = .ok (utf8 (dotted p.parts)) := by
  cases h with
  | package p hpackage hspec h =>
    refine .inr ⟨fun hnone => ?_, p, rfl, ?_⟩
    · cases hpackage.symm.trans hnone.1
    · unfold packageOf
      rw [hpackage, hspec]
      dsimp only
      split
      next => rfl
      next hne =>
        obtain ⟨parent, b, hparent, heq⟩ := h.resolve_left hne
        rw [hparent]
        show host.eq (.str (utf8 (dotted p.parts))) parent >>= _ = _
        rw [heq]
        rfl
  | @spec spec p hpackage hspec hne hparent =>
    refine .inr ⟨fun hnone => hne (Option.some.inj (hspec.symm.trans hnone.2)), p, rfl, ?_⟩
    unfold packageOf
    rw [hpackage, hspec]
    cases spec with
    | none => exact absurd rfl hne
    | str value =>
      dsimp only
      rw [hparent]
      rfl
    | other address =>
      dsimp only
      rw [hparent]
      rfl
  | name p hpackage hspec hname =>
    refine .inl ⟨hpackage, hspec, ?_⟩
    unfold packageOf packageOfName
    rw [hpackage, hspec]
    dsimp only
    rw [hname]
    rfl

/-- **Relative imports.** The code finds the package that is asked for exactly where it has to take off no more than the
component of the last dot it sees, and returns the module of a dotted name only if the name is twice as long as its tail. -/
theorem relativeRight_iff (h : Given host globals parts) (hlevel : 1 ≤ level) :
    RelativeRight host globals parts level name ↔ Found globals parts level ∧ Halved parts level name := by
  unfold RelativeRight Found Halved
  rcases packageOf_given h with ⟨hpackage, hspec, herror⟩ | ⟨hsome, p, rfl, hknown⟩
  · refine iff_of_false (fun h => ?_) fun h => h.1.1 ⟨hpackage, hspec⟩
    have hresolve : resolveName host (utf8 name) (some globals) level =
        some (.error (.type "__name__ must be a string")) := by
      unfold resolveName
      dsimp only
      rw [herror]
    have hresolved := h.1
    unfold Resolved at hresolved
    rw [hresolve] at hresolved
    split at hresolved
    next => cases hresolved
    next =>
      obtain ⟨text, htext⟩ := hresolved
      cases htext
  · rw [and_iff_right hsome, ← resolved_iff p hknown hlevel]
    refine and_congr_right fun hresolved => forall_congr' fun hle => forall_congr' fun head => forall_congr' fun tail =>
      forall_congr' fun hname => forall_congr' fun hhead => ?_
    subst hname
    unfold Resolved at hresolved
    rw [if_pos hle] at hresolved
    exact importRight_iff hlevel hhead hresolved

/-- The variables of a module in a package. -/
def inPackage (package : String) : Globals := ⟨some (.str (utf8 package.toList)), some .none, none, false⟩

def plainHost : Host := ⟨fun _ => .ok .none, fun _ _ => .ok true⟩

/-- `from ..c.dd import x` in `a.b`. -/
theorem relativeRight_sibling : RelativeRight plainHost (inPackage "a.b") ["a".toList, "b".toList] 2 "c.dd".toList := by
  have hgiven : Given plainHost (inPackage "a.b") ["a".toList, "b".toList] :=
    .package ⟨["a".toList, "b".toList], by decide, by decide⟩ rfl rfl (.inl rfl)
  refine (relativeRight_iff hgiven (by decide)).mpr ⟨⟨by decide, by decide⟩, fun _ head tail hname hhead => ?_⟩
  have hname : ['c', '.', 'd', 'd'] = head ++ '.' :: tail := hname
  cases head with
  | nil => exact absurd (List.cons.inj hname).1 (by decide)
  | cons c head =>
    obtain ⟨rfl, hrest⟩ := List.cons.inj hname
    cases head with
    | nil =>
      obtain rfl := (List.cons.inj hrest).2
      decide
    | cons c' head =>
      obtain ⟨rfl, -⟩ := List.cons.inj hrest
      exact absurd (List.mem_cons_of_mem _ List.mem_cons_self) hhead

/-- `from ... import x` in `a.b.c` imports from `a.b`. -/
theorem third_level_kept : ¬ RelativeRight plainHost (inPackage "a.b.c") ["a".toList, "b".toList, "c".toList] 3 [] := by
  intro h
  have hfound := (resolved_iff ⟨["a".toList, "b".toList, "c".toList], by decide, by decide⟩ rfl (by decide)).mp h.1
  exact absurd hfound (by decide)

end Pylang.Runtime.Import

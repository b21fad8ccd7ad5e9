/-
`PyString::translate`. It keeps what an integer of the table is encoded to under
that integer, and looks it up there by the code point that it reads: a character
that an earlier one is mapped to is copied, whatever the table has for it.
-/
import Mathlib
import Pylang.Lib.Ensures
import Pylang.Runtime.Utf8

namespace Pylang.Runtime.Translate

/-- What `table->getitem` answers: an object, or an error. -/
inductive TableReply (E : Type) where
  | str (value : Bytes)
  | int (n : Int)
  | none
  /-- An object of any other type. -/
  | object
  | keyError
  /-- A `LookupError` that is no `KeyError`, as a list raises. -/
  | lookupError (e : E)
  | error (e : E)

/-- How `translate` ends without a string. -/
inductive TranslateStop (E : Type) where
  | raised (e : E)
  | valueError (message : String)
  | typeError (message : String)
  /-- An assertion fails. -/
  | abort
  /-- An empty `std::optional` is read. -/
  | undefined

section
variable {E : Type}

/-- `*utf8::utf8chr(cp)`. -/
def encoded (cp : Nat) : Except (TranslateStop E) Bytes :=
  match utf8chr cp with
  | some el => .ok el
  | none => .error .undefined

/-- The `cache`, by code points. -/
abbrev Cache := List (Nat × Bytes)

/-- What the loop appends for a code point, and the cache that it leaves. -/
def translateOne (table : Nat → TableReply E) (cache : Cache) (cp : Nat) :
    Except (TranslateStop E) (Bytes × Cache) :=
  match cache.lookup cp with
  | some el => .ok (el, cache)
  | none =>
    match table cp with
    | .keyError => do return (← encoded cp, cache)
    | .lookupError e => .error (.raised e)
    | .error e => .error (.raised e)
    | .none => .ok ([], cache)
    | .int n =>
      if 0x110000 < n ∨ n < 0 then .error (.valueError "character mapping must be in range(0x110000)")
      else if 2 ^ 32 ≤ n.toNat then
        .error (.valueError s!"character mapping value {n.toNat} does not fit in uint32_t")
      else do
        let el ← encoded n.toNat
        return (el, (n.toNat, el) :: cache)
    | .str value => .ok (value, cache)
    | .object => .error (.typeError "character mapping must return integer, None or str")

/-- The loop, with what is appended for each code point. -/
def translateLoop (table : Nat → TableReply E) : Cache → List Nat → Except (TranslateStop E) (List Bytes)
  | _, [] => .ok []
  | cache, cp :: cps => do
    let (el, cache) ← translateOne table cache cp
    let rest ← translateLoop table cache cps
    return el :: rest

def appended (table : Nat → TableReply E) (value : Bytes) : Except (TranslateStop E) (List Bytes) :=
  match codepoints value with
  | some cps => translateLoop table [] cps
  | none => .error .abort

/-- `PyString::translate`: the value of the string. -/
def translate (table : Nat → TableReply E) (value : Bytes) : Except (TranslateStop E) Bytes :=
  (appended table value).map List.flatten

/-! ## What it is for -/

/-- What the table makes of a character; `none` where that is no string, no character and no `None`. -/
def mapped (table : Nat → TableReply E) (c : Char) : Option Bytes :=
  match table c.toNat with
  | .str value => some value
  | .int n => if 0 ≤ n ∧ n.toNat.isValidChar then some (utf8 [Char.ofNat n.toNat]) else none
  | .none => some []
  | .keyError | .lookupError _ => some (utf8 [c])
  | .object | .error _ => none

/-- What is asked of `translate`: that it appends for each character what the table makes of that character. -/
def TranslatesRight (table : Nat → TableReply E) (s : List Char) : Prop :=
  ∃ pieces, s.mapM (mapped table) = some pieces ∧ appended table (utf8 s) = .ok pieces ∧
    translate table (utf8 s) = .ok pieces.flatten

/-- One of the characters is mapped to `c` by its number. -/
def Reached (table : Nat → TableReply E) (earlier : List Char) (c : Char) : Prop :=
  ∃ d ∈ earlier, table d.toNat = .int c.toNat

/-- A character that an earlier one is mapped to stays as it is; any other with no entry has a `KeyError` for it. -/
def Clear (table : Nat → TableReply E) (earlier : List Char) (c : Char) : Prop :=
  (Reached table earlier c → mapped table c = some (utf8 [c])) ∧
    (¬ Reached table earlier c → ∀ e, table c.toNat ≠ .lookupError e)

/-- Every character is clear of those before it. -/
def AllClear (table : Nat → TableReply E) (earlier : List Char) : List Char → Prop
  | [] => True
  | c :: s => Clear table earlier c ∧ AllClear table (earlier ++ [c]) s

/-! ## The cache -/

/-- The cache has the characters that those before are mapped to, each for itself. -/
def Caches (table : Nat → TableReply E) (earlier : List Char) (cache : Cache) : Prop :=
  ∀ c : Char, (Reached table earlier c → cache.lookup c.toNat = some (utf8 [c])) ∧
    (¬ Reached table earlier c → cache.lookup c.toNat = none)

variable {table : Nat → TableReply E} {earlier : List Char} {cache cache' : Cache} {c : Char}

theorem encoded_toNat (c : Char) : encoded (E := E) c.toNat = .ok (utf8 [c]) := by
  rw [encoded, utf8chr_toNat, utf8_cons, utf8_nil, List.append_nil]

theorem reached_append {d : Char} :
    Reached table (earlier ++ [c]) d ↔ Reached table earlier d ∨ table c.toNat = .int d.toNat := by
  unfold Reached
  constructor
  · intro h
    obtain ⟨b, hb, hint⟩ := h
    rcases List.mem_append.mp hb with hb | hb
    · exact .inl ⟨b, hb, hint⟩
    · cases List.mem_singleton.mp hb
      exact .inr hint
  · intro h
    rcases h with ⟨b, hb, hint⟩ | hint
    · exact ⟨b, List.mem_append_left _ hb, hint⟩
    · exact ⟨c, List.mem_append_right _ (List.mem_singleton_self c), hint⟩

theorem toNat_char {n : Nat} (h : n.isValidChar) : (Char.ofNat n).toNat = n := by
  rw [Char.ofNat, dif_pos h]
  rfl

theorem mapped_int {n : Int} (htable : table c.toNat = .int n) {piece : Bytes} (h : mapped table c = some piece) :
    ∃ d : Char, n = d.toNat ∧ piece = utf8 [d] := by
  unfold mapped at h
  rw [htable] at h
  dsimp only at h
  split at h
  next hvalid =>
    refine ⟨Char.ofNat n.toNat, ?_, (Option.some.inj h).symm⟩
    rw [toNat_char hvalid.2]
    omega
  next => cases h

theorem Caches.stays (h : Caches table earlier cache)
    (hint : ∀ d : Char, table c.toNat = .int d.toNat → Reached table earlier d) :
    Caches table (earlier ++ [c]) cache := by
  intro d
  have hiff : Reached table (earlier ++ [c]) d ↔ Reached table earlier d := by
    rw [reached_append]
    exact ⟨fun hd => hd.elim id (hint d), .inl⟩
  rw [hiff]
  exact h d

theorem Caches.insert (h : Caches table earlier cache) {d : Char} (htable : table c.toNat = .int d.toNat) :
    Caches table (earlier ++ [c]) ((d.toNat, utf8 [d]) :: cache) := by
  intro b
  have hiff : Reached table (earlier ++ [c]) b ↔ Reached table earlier b ∨ d = b := by
    rw [reached_append, htable]
    refine or_congr_right ⟨fun hd => ?_, fun hd => by rw [hd]⟩
    exact toNat_injective (Int.ofNat_inj.mp (TableReply.int.inj hd))
  rw [hiff, List.lookup_cons]
  by_cases hb : d = b
  · subst hb
    rw [beq_self_eq_true]
    exact ⟨fun _ => rfl, fun hnot => absurd (.inr rfl) hnot⟩
  · have hne : (b.toNat == d.toNat) = false := by
      rw [beq_eq_false_iff_ne]
      exact fun heq => hb (toNat_injective heq.symm)
    rw [hne]
    exact ⟨fun hor => (h b).1 (hor.resolve_right hb), fun hnot => (h b).2 fun hr => hnot (.inl hr)⟩

/-- One turn of the loop, for a character that is clear. -/
theorem translateOne_clear (h : Caches table earlier cache) (hclear : Clear table earlier c) {piece : Bytes}
    (hmapped : mapped table c = some piece) :
    ∃ cache', translateOne table cache c.toNat = .ok (piece, cache') ∧ Caches table (earlier ++ [c]) cache' := by
  unfold translateOne
  by_cases hreached : Reached table earlier c
  · obtain rfl : piece = utf8 [c] := Option.some.inj (hmapped.symm.trans (hclear.1 hreached))
    refine ⟨cache, by rw [(h c).1 hreached], h.stays fun d hd => ?_⟩
    obtain ⟨d', hd', hpiece⟩ := mapped_int hd hmapped
    -- The character is mapped to itself.
    obtain rfl : c = d' := List.singleton_injective (utf8_injective hpiece)
    obtain rfl : d = c := toNat_injective (Int.ofNat_inj.mp hd')
    exact hreached
  · have hkey := hclear.2 hreached
    rw [(h c).2 hreached]
    dsimp only
    have hother (hne : ∀ n, table c.toNat ≠ .int n) : Caches table (earlier ++ [c]) cache :=
      h.stays fun d hd => absurd hd (hne _)
    rcases htable : table c.toNat with value | n | _ | _ | _ | e | e
    · have hpiece : mapped table c = some value := by rw [mapped, htable]
      cases hmapped.symm.trans hpiece
      exact ⟨cache, rfl, hother fun n hn => by cases htable.symm.trans hn⟩
    · obtain ⟨d, rfl, rfl⟩ := mapped_int htable hmapped
      have hvalid := toNat_valid d
      refine ⟨(d.toNat, utf8 [d]) :: cache, ?_, h.insert htable⟩
      dsimp only
      rw [if_neg (by omega), if_neg (by omega), Int.toNat_natCast, encoded_toNat]
      rfl
    · have hpiece : mapped table c = some [] := by rw [mapped, htable]
      cases hmapped.symm.trans hpiece
      exact ⟨cache, rfl, hother fun n hn => by cases htable.symm.trans hn⟩
    · have hpiece : mapped table c = none := by rw [mapped, htable]
      cases hmapped.symm.trans hpiece
    · have hpiece : mapped table c = some (utf8 [c]) := by rw [mapped, htable]
      cases hmapped.symm.trans hpiece
      refine ⟨cache, ?_, hother fun n hn => by cases htable.symm.trans hn⟩
      dsimp only
      rw [encoded_toNat]
      rfl
    · exact absurd htable (hkey e)
    · have hpiece : mapped table c = none := by rw [mapped, htable]
      cases hmapped.symm.trans hpiece

/-- A turn that appends what the table makes of the character is one for a character that is clear. -/
theorem clear_of_translateOne (h : Caches table earlier cache) {piece : Bytes} (hmapped : mapped table c = some piece)
    (hone : translateOne table cache c.toNat = .ok (piece, cache')) : Clear table earlier c := by
  unfold translateOne at hone
  constructor
  · intro hreached
    rw [(h c).1 hreached] at hone
    cases hone
    exact hmapped
  · intro hreached e he
    rw [(h c).2 hreached] at hone
    dsimp only at hone
    rw [he] at hone
    cases hone

/-! ## A string -/

theorem translateLoop_iff : ∀ {s earlier : List Char} {cache : Cache} {pieces : List Bytes}, Caches table earlier cache →
    s.mapM (mapped table) = some pieces →
    (translateLoop table cache (points s) = .ok pieces ↔ AllClear table earlier s) := by
  intro s
  induction s with
  | nil =>
    intro earlier cache pieces _ hmapped
    cases hmapped
    exact ⟨fun _ => trivial, fun _ => rfl⟩
  | cons c s ih =>
    intro earlier cache pieces h hmapped
    rw [List.mapM_cons] at hmapped
    obtain ⟨piece, hpiece, hmapped⟩ := Option.bind_eq_some_iff.mp hmapped
    obtain ⟨rest, hrest, hmapped⟩ := Option.bind_eq_some_iff.mp hmapped
    cases hmapped
    rw [points, List.map_cons, translateLoop, AllClear]
    constructor
    · intro hok
      obtain ⟨⟨el, cache'⟩, hone, hok⟩ := bind_eq_ok.mp hok
      obtain ⟨rest', hloop, hok⟩ := bind_eq_ok.mp hok
      cases hok
      have hclear := clear_of_translateOne h hpiece hone
      obtain ⟨cache'', hone', hcaches⟩ := translateOne_clear h hclear hpiece
      cases hone.symm.trans hone'
      exact ⟨hclear, (ih hcaches hrest).mp hloop⟩
    · intro hclear
      obtain ⟨cache', hone, hcaches⟩ := translateOne_clear h hclear.1 hpiece
      have hloop := (ih hcaches hrest).mpr hclear.2
      rw [hone]
      show (do let rest ← translateLoop table cache' (points s); _) = _
      rw [hloop]
      rfl

theorem allClear_iff {s : List Char} : ∀ {earlier : List Char}, AllClear table earlier s ↔
    ∀ before c after, s = before ++ c :: after → Clear table (earlier ++ before) c := by
  induction s with
  | nil => exact fun {earlier} => ⟨fun _ before c after h => by simp at h, fun _ => trivial⟩
  | cons c s ih =>
    intro earlier
    rw [AllClear, ih]
    constructor
    · intro h before d after heq
      cases before with
      | nil =>
        cases heq
        rw [List.append_nil]
        exact h.1
      | cons b before =>
        cases heq
        have hrest := h.2 before d after rfl
        rw [List.append_assoc] at hrest
        exact hrest
    · intro h
      have hfirst := h [] c s rfl
      rw [List.append_nil] at hfirst
      refine ⟨hfirst, fun before d after heq => ?_⟩
      rw [List.append_assoc]
      exact h (c :: before) d after (by rw [heq]; rfl)

end

/-- **`translate` is right** where each character that an earlier one is mapped to by its number stays as it is, and any
other that the table does not have is one for which it raises `KeyError`. -/
theorem translatesRight_iff {E : Type} (table : Nat → TableReply E) (s : List Char)
    (hmaps : ∀ c ∈ s, mapped table c ≠ none) : TranslatesRight table s ↔
      ∀ before c after, s = before ++ c :: after → Clear table before c := by
  have hpieces : ∃ pieces, s.mapM (mapped table) = some pieces := by
    refine ⟨s.map fun c => (mapped table c).getD [], Lib.mapM_eq_pure fun c hc => ?_⟩
    obtain ⟨piece, hpiece⟩ := Option.ne_none_iff_exists'.mp (hmaps c hc)
    rw [hpiece]
    rfl
  obtain ⟨pieces, hpieces⟩ := hpieces
  have hempty : Caches table [] [] := by
    intro c
    refine ⟨fun h => ?_, fun _ => rfl⟩
    obtain ⟨d, hd, -⟩ := h
    cases hd
  have happended : appended table (utf8 s) = translateLoop table [] (points s) := by
    rw [appended, codepoints_utf8]
  have hiff := translateLoop_iff hempty hpieces
  rw [allClear_iff] at hiff
  simp only [List.nil_append] at hiff
  unfold TranslatesRight translate
  rw [happended, ← hiff]
  constructor
  · intro h
    obtain ⟨pieces', hpieces', hloop, -⟩ := h
    cases hpieces.symm.trans hpieces'
    exact hloop
  · intro h
    exact ⟨pieces, hpieces, h, by rw [h]; rfl⟩

/-- `"ab".translate({97: 98})`. -/
theorem translatesRight_shift :
    TranslatesRight (E := Empty) (fun n => if n = 97 then .int 98 else .keyError) ['a', 'b'] := by
  have hmaps : ∀ c ∈ ['a', 'b'], mapped (E := Empty) (fun n => if n = 97 then .int 98 else .keyError) c ≠ none := by
    intro c hc
    rcases List.mem_cons.mp hc with rfl | hc
    · decide
    · cases List.mem_singleton.mp hc
      decide
  refine (translatesRight_iff _ ['a', 'b'] hmaps).mpr fun before c after h => ?_
  refine ⟨fun hreached => ?_, fun _ e => e.elim⟩
  obtain ⟨d, hd, hint⟩ := hreached
  dsimp only at hint
  split at hint
  next =>
    obtain rfl : c = 'b' := toNat_injective (Int.ofNat_inj.mp (TableReply.int.inj hint)).symm
    rfl
  next => cases hint

/-- `"ab".translate({97: 98, 98: "x"})` is `"bb"`. -/
theorem cachedTarget_copied : ∃ table : Nat → TableReply Empty, mapped table 'a' = some (utf8 ['b']) ∧
    mapped table 'b' = some (utf8 ['x']) ∧ translate table (utf8 ['a', 'b']) = .ok (utf8 ['b', 'b']) ∧
    ¬ TranslatesRight table ['a', 'b'] := by
  let table : Nat → TableReply Empty := fun n => if n = 97 then .int 98 else .str (utf8 ['x'])
  have happended : appended table (utf8 ['a', 'b']) = .ok [utf8 ['b'], utf8 ['b']] := by
    rw [appended, codepoints_utf8]
    rfl
  refine ⟨table, rfl, rfl, by rw [translate, happended]; rfl, fun h => ?_⟩
  obtain ⟨pieces, hpieces, hloop, -⟩ := h
  cases happended.symm.trans hloop
  have hright : ['a', 'b'].mapM (mapped table) = some [utf8 ['b'], utf8 ['x']] := rfl
  exact absurd (hright.symm.trans hpieces) (by decide)

end Pylang.Runtime.Translate

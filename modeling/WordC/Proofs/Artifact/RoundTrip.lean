import Mathlib
import WordC.Artifact.Format
/-!
# Saved programs are read back

The bytes of a value delimit themselves: a reader that is given them and
anything behind them takes exactly them and returns the value, and a reader
that is given only a part of them runs out of bytes. Both halves are one
relation, `Delimits`, because the second half is what lets two fields stand
one behind the other: where the cut falls into the second field, the first
must be read in full. The relation is closed under sequencing, so every record
follows from its fields in the order in which they are written.
-/

namespace WordC

/-- The bytes are what the reader takes for the value: with anything behind
them they are taken whole, and a part of them is too short. -/
structure Delimits {α : Type} (bytes : List UInt8) (read : Reader α) (a : α) : Prop where
  whole : ∀ rest, read (bytes ++ rest) = .ok (a, rest)
  cut : ∀ front, front <+: bytes → front ≠ bytes → read front = .error .endOfBytes

namespace Delimits

variable {α β : Type} {bytes more : List UInt8} {read : Reader α} {a : α} {b : β}

/-! ## Sequencing -/

theorem nothing (a : α) : Delimits [] (pure a) a where
  whole _ := rfl
  cut _ hfront hne := absurd (List.prefix_nil.mp hfront) hne

/-- A part of two runs of bytes ends in the first run, or holds all of it and
ends in the second. -/
theorem cut_append {front : List UInt8} (hfront : front <+: bytes ++ more)
    (hne : front ≠ bytes ++ more) :
    (front <+: bytes ∧ front ≠ bytes) ∨
      ∃ tail, front = bytes ++ tail ∧ tail <+: more ∧ tail ≠ more := by
  by_cases hlength : front.length < bytes.length
  · refine .inl ⟨List.prefix_of_prefix_length_le hfront (List.prefix_append ..) hlength.le, ?_⟩
    rintro rfl
    omega
  · have hwhole : bytes <+: front :=
      List.prefix_of_prefix_length_le (List.prefix_append ..) hfront (by omega)
    obtain ⟨tail, rfl⟩ := hwhole
    refine .inr ⟨tail, rfl, (List.prefix_append_right_inj bytes).mp hfront, ?_⟩
    rintro rfl
    exact hne rfl

theorem cut_singleton {byte : UInt8} {front : List UInt8} (hfront : front <+: [byte])
    (hne : front ≠ [byte]) : front = [] := by
  rcases List.prefix_cons_iff.mp hfront with rfl | ⟨tail, rfl, htail⟩
  · rfl
  · exact absurd (by rw [List.prefix_nil.mp htail]) hne

/-- A value whose bytes go before those of the next. -/
theorem bind {next : α → Reader β} (first : Delimits bytes read a)
    (second : Delimits more (next a) b) : Delimits (bytes ++ more) (read >>= next) b where
  whole rest := by
    have hfirst := first.whole (more ++ rest)
    rw [List.append_assoc]
    simp only [Bind.bind, StateT.bind, Except.bind, hfirst]
    exact second.whole rest
  cut front hfront hne := by
    rcases cut_append hfront hne with ⟨hshort, hpart⟩ | ⟨tail, rfl, htail, hpart⟩
    · simp only [Bind.bind, StateT.bind, Except.bind, first.cut front hshort hpart]
    · simp only [Bind.bind, StateT.bind, Except.bind, first.whole tail]
      exact second.cut tail htail hpart

/-- A value that is wrapped after it is read. -/
theorem map {f : α → β} (h : Delimits bytes read a) :
    Delimits bytes (do return f (← read)) (f a) := by
  have hwrapped : Delimits (bytes ++ []) (read >>= fun a => pure (f a)) (f a) :=
    h.bind (nothing (f a))
  rwa [List.append_nil] at hwrapped

end Delimits

/-! ## Numbers -/

namespace Reader

variable {α : Type}

theorem delimits_byte (b : UInt8) : Delimits [b] byte b where
  whole _ := rfl
  cut front hfront hne := by
    rw [Delimits.cut_singleton hfront hne]
    rfl

/-- The last group of a number. -/
theorem delimits_last {n : Nat} (hn : n < 128) (count : Nat) :
    Delimits [UInt8.ofNat n] (groups (count + 1)) n := by
  have hb : UInt8.ofNat n < 128 := by
    rw [UInt8.lt_iff_toNat_lt, UInt8.toNat_ofNat']
    simp only [UInt8.reduceToNat]
    omega
  have hvalue : (UInt8.ofNat n).toNat = n := by
    rw [UInt8.toNat_ofNat']
    omega
  have hread : Delimits ([UInt8.ofNat n] ++ []) (groups (count + 1)) n := by
    refine (delimits_byte _).bind ?_
    rw [if_pos hb, hvalue]
    exact .nothing n
  rwa [List.append_nil] at hread

/-- A number is read back where it has no more groups than the reader takes. -/
theorem delimits_groups (count n : Nat) (h : n < 128 ^ (count + 1)) :
    Delimits (writeNumber n) (groups (count + 1)) n := by
  induction count generalizing n with
  | zero =>
    have hn : n < 128 := by simpa using h
    rw [writeNumber, if_pos hn]
    exact delimits_last hn 0
  | succ count ih =>
    rw [writeNumber]
    split
    · next hn => exact delimits_last hn _
    -- seven bits go into this byte, and what is left fits one group fewer
    · have hrest : n / 128 < 128 ^ (count + 1) := by
        rw [Nat.div_lt_iff_lt_mul (by decide), ← pow_succ]
        exact h
      have hb : ¬UInt8.ofNat (n % 128 + 128) < 128 := by
        rw [UInt8.lt_iff_toNat_lt, UInt8.toNat_ofNat']
        simp only [UInt8.reduceToNat]
        omega
      have hvalue : (UInt8.ofNat (n % 128 + 128)).toNat - 128 + 128 * (n / 128) = n := by
        rw [UInt8.toNat_ofNat']
        omega
      have hread := (ih (n / 128) hrest).map
        (f := fun m => (UInt8.ofNat (n % 128 + 128)).toNat - 128 + 128 * m)
      rw [hvalue] at hread
      refine (delimits_byte (UInt8.ofNat (n % 128 + 128))).bind ?_
      rw [if_neg hb]
      exact hread

/-- A number below the reader's limit is read back. -/
theorem delimits_numberBelow {count limit n : Nat} (hn : n < limit)
    (hlimit : limit ≤ 128 ^ (count + 1)) :
    Delimits (writeNumber n) (numberBelow (count + 1) limit) n := by
  have hchecked : Delimits (writeNumber n ++ []) (numberBelow (count + 1) limit) n := by
    refine (delimits_groups count n (hn.trans_le hlimit)).bind ?_
    rw [if_pos hn]
    exact .nothing n
  rwa [List.append_nil] at hchecked

theorem delimits_number32 {n : Nat} (hn : n < UInt32.size) : Delimits (writeNumber n) number32 n :=
  delimits_numberBelow hn (by decide)

theorem delimits_number64 {n : Nat} (hn : n < UInt64.size) : Delimits (writeNumber n) number64 n :=
  delimits_numberBelow hn (by decide)

/-- A code of one byte. -/
theorem delimits_short {b : UInt8} (hb : b < 128) : Delimits [b] number32 b.toNat := by
  have hn : b.toNat < 128 := hb
  have hread := delimits_number32 (hn.trans (by decide))
  rwa [writeNumber, if_pos hn, UInt8.ofNat_toNat] at hread

theorem unzigzag_zigzag (n : Int) : unzigzag (zigzag n) = n := by
  cases n with
  | ofNat n => simp [zigzag, unzigzag]
  | negSucc n =>
    have hodd : (2 * n + 1) % 2 ≠ 0 := by omega
    have hhalf : (2 * n + 1) / 2 = n := by omega
    simp only [zigzag, unzigzag, if_neg hodd, hhalf]

theorem zigzag_lt (n : Int64) : zigzag n.toInt < UInt64.size := by
  have hlow : -2 ^ 63 ≤ n.toInt := n.le_toInt
  have hhigh : n.toInt < 2 ^ 63 := n.toInt_lt
  have hsize : UInt64.size = 2 ^ 64 := rfl
  cases hn : n.toInt with
  | ofNat m =>
    rw [hn] at hhigh
    simp only [zigzag, Int.ofNat_eq_natCast] at hhigh ⊢
    omega
  | negSucc m =>
    rw [hn, Int.negSucc_eq] at hlow
    simp only [zigzag]
    omega

theorem delimits_signed (n : Int64) : Delimits (writeSigned n) signed n := by
  have hread := (delimits_number64 (zigzag_lt n)).map (f := fun m => Int64.ofInt (unzigzag m))
  rwa [unzigzag_zigzag, Int64.ofInt_toInt] at hread

/-! ## Texts, lists, options and codes -/

theorem toList_loop (bytes : ByteArray) (i : Nat) (taken : List UInt8) :
    ByteArray.toList.loop bytes i taken = taken.reverse ++ bytes.data.toList.drop i := by
  fun_induction ByteArray.toList.loop bytes i taken with
  | case1 i taken hi ih =>
    have hi' : i < bytes.data.toList.length := by simpa using hi
    have hget : bytes.get! i = bytes.data.toList[i] := by
      simp [ByteArray.get!, hi]
    rw [ih, List.drop_eq_getElem_cons hi', List.reverse_cons, List.append_assoc, hget,
      List.singleton_append]
  | case2 i taken hi =>
    have hend : bytes.data.toList.length ≤ i := by simpa using hi
    rw [List.drop_eq_nil_of_le hend, List.append_nil]

theorem toList_eq (bytes : ByteArray) : bytes.toList = bytes.data.toList := by
  rw [ByteArray.toList, toList_loop]
  rfl

theorem delimits_text {s : String} (hs : s.utf8ByteSize < UInt64.size) :
    Delimits (writeText s) text s := by
  have hlength : s.toUTF8.toList.length = s.utf8ByteSize := by
    rw [toList_eq]
    simp
  refine (delimits_number64 hs).bind ⟨?_, ?_⟩
  · intro rest
    have henough : ¬(s.toUTF8.toList ++ rest).length < s.utf8ByteSize := by
      rw [List.length_append]
      omega
    have htake : (s.toUTF8.toList ++ rest).take s.utf8ByteSize = s.toUTF8.toList :=
      List.take_left' hlength
    have hdrop : (s.toUTF8.toList ++ rest).drop s.utf8ByteSize = rest :=
      List.drop_left' hlength
    have hdecode : String.fromUTF8? ⟨s.toUTF8.toList.toArray⟩ = some s := by
      have hvalid : s.toUTF8.IsValidUTF8 := s.isValidUTF8
      rw [toList_eq, Array.toArray_toList, String.fromUTF8?, dif_pos hvalid]
      rfl
    change ((if _ < _ then _ else _ : Reader String) _) = _
    rw [if_neg henough, htake, hdecode, hdrop]
    rfl
  · intro front hfront hne
    -- a part of the bytes is shorter than the announced size
    have hshort : front.length < s.utf8ByteSize := by
      rw [← hlength]
      exact lt_of_le_of_ne hfront.length_le fun heq => hne (hfront.eq_of_length heq)
    change ((if _ < _ then _ else _ : Reader String) _) = _
    rw [if_pos hshort]
    rfl

theorem delimits_times {write : α → List UInt8} {read : Reader α} (xs : List α)
    (hxs : ∀ x ∈ xs, Delimits (write x) read x) :
    Delimits (xs.flatMap write) (times read xs.length) xs := by
  induction xs with
  | nil => exact .nothing []
  | cons x xs ih =>
    have hrest := ih fun y hy => hxs y (List.mem_cons_of_mem x hy)
    have hx := hxs x List.mem_cons_self
    rw [List.flatMap_cons]
    exact hx.bind hrest.map

theorem delimits_list {write : α → List UInt8} {read : Reader α} {xs : List α}
    (hlength : xs.length < UInt64.size) (hxs : ∀ x ∈ xs, Delimits (write x) read x) :
    Delimits (writeList write xs) (list read) xs :=
  (delimits_number64 hlength).bind (delimits_times xs hxs)

theorem delimits_option {write : α → List UInt8} {read : Reader α} {o : Option α}
    (ho : ∀ a, o = some a → Delimits (write a) read a) :
    Delimits (writeOption write o) (option read) o := by
  cases o with
  | none => exact (delimits_byte 0).bind (.nothing none)
  | some a => exact (delimits_byte 1).bind (ho a rfl).map

theorem delimits_code [DecidableEq α] {all : List α} {a : α} (ha : a ∈ all)
    (hall : all.length ≤ UInt32.size) : Delimits (writeCode all a) (code all) a := by
  have hindex : all.idxOf a < all.length := List.idxOf_lt_length_of_mem ha
  have hread : Delimits (writeCode all a ++ []) (code all) a := by
    refine (delimits_number32 (hindex.trans_le hall)).bind ?_
    rw [List.getElem?_idxOf ha]
    exact .nothing a
  rwa [List.append_nil] at hread

end Reader

/-! ## Types and variables -/

namespace DataType

/-- The code of a pointer is followed by the type it points to. -/
theorem readUpTo_pointer (limit : Nat) (bytes : List UInt8) :
    readUpTo (limit + 1) (4 :: bytes) = (do return pointer (← readUpTo limit)) bytes :=
  rfl

/-- A type is read back where the reader may take as many codes as the type
has bytes. -/
theorem readUpTo_write (t : DataType) {limit : Nat} (h : t.write.length ≤ limit)
    (rest : List UInt8) : readUpTo limit (t.write ++ rest) = .ok (t, rest) := by
  induction t generalizing limit with
  | pointer target ih =>
    obtain ⟨limit, rfl⟩ := Nat.exists_eq_add_of_lt (Nat.lt_of_lt_of_le (Nat.succ_pos _) h)
    rw [Nat.zero_add] at h ⊢
    have hinner := ih (Nat.le_of_succ_le_succ h)
    rw [write, List.cons_append, readUpTo_pointer]
    simp only [Bind.bind, StateT.bind, Except.bind, hinner]
    rfl
  | void | int | bool | char =>
    obtain ⟨limit, rfl⟩ := Nat.exists_eq_add_of_lt (Nat.lt_of_lt_of_le (Nat.succ_pos _) h)
    rw [Nat.zero_add]
    rfl

/-- A part of the bytes of a type is too short, however many codes may be
taken. -/
theorem readUpTo_cut (t : DataType) (limit : Nat) {front : List UInt8}
    (hfront : front <+: t.write) (hne : front ≠ t.write) :
    readUpTo limit front = .error .endOfBytes := by
  induction t generalizing limit front with
  | pointer target ih =>
    cases limit with
    | zero => rfl
    | succ limit =>
      rcases List.prefix_cons_iff.mp hfront with rfl | ⟨tail, rfl, htail⟩
      · rfl
      · have hinner := ih limit htail fun heq => hne (by rw [heq, write])
        rw [readUpTo_pointer]
        simp only [Bind.bind, StateT.bind, Except.bind, hinner]
  | void | int | bool | char =>
    rw [Delimits.cut_singleton hfront hne]
    cases limit <;> rfl

theorem delimits (t : DataType) : Delimits t.write read t where
  whole rest := readUpTo_write t (by simp; omega) rest
  cut front := readUpTo_cut t (front.length + 1)

end DataType

/-- The size of the label fits one word. -/
def Storage.SizesFit : Storage → Prop
  | frame _ => True
  | global label => label.utf8ByteSize < UInt64.size

instance (s : Storage) : Decidable s.SizesFit :=
  match s with
  | .frame _ => .isTrue trivial
  | .global label => inferInstanceAs (Decidable (label.utf8ByteSize < UInt64.size))

theorem Storage.delimits {p : Storage} (h : p.SizesFit) : Delimits p.write read p := by
  cases p with
  | frame offset =>
    exact (Reader.delimits_short (by decide)).bind (Reader.delimits_signed offset).map
  | global label => exact (Reader.delimits_short (by decide)).bind (Reader.delimits_text h).map

/-- The sizes of the texts of a variable fit one word. -/
structure Variable.SizesFit (v : Variable) : Prop where
  name : v.name.utf8ByteSize < UInt64.size
  storage : v.storage.SizesFit

instance (v : Variable) : Decidable v.SizesFit :=
  decidable_of_iff (v.name.utf8ByteSize < UInt64.size ∧ v.storage.SizesFit)
    ⟨fun h => ⟨h.1, h.2⟩, fun h => ⟨h.1, h.2⟩⟩

theorem Reader.delimits_word (n : UInt64) :
    Delimits (writeNumber n.toNat) (do return UInt64.ofNat (← number64)) n := by
  have hread := (delimits_number64 n.toNat_lt).map (f := UInt64.ofNat)
  rwa [UInt64.ofNat_toNat] at hread

theorem Variable.delimits {v : Variable} (h : v.SizesFit) : Delimits v.write read v := by
  have hlength : Delimits (writeOption (fun n => writeNumber n.toNat) v.length)
      (Reader.option (do return UInt64.ofNat (← Reader.number64))) v.length :=
    Reader.delimits_option fun n _ => Reader.delimits_word n
  rw [write, List.append_assoc, List.append_assoc]
  exact (Reader.delimits_text h.name).bind <| v.type.delimits.bind <|
    (Storage.delimits h.storage).bind hlength.map

theorem Constant.delimits (c : Constant) : Delimits c.write read c :=
  c.type.delimits.bind (Reader.delimits_signed c.value).map

/-! ## Elements -/

/-- The size of the name fits one word. -/
def CallRef.SizesFit (c : CallRef) : Prop :=
  c.name.utf8ByteSize < UInt64.size

theorem CallRef.delimits {c : CallRef} (h : c.SizesFit) : Delimits c.write read c := by
  have hread : Delimits (writeNumber c.arity.toNat)
      (do return { name := c.name, arity := UInt64.ofNat (← Reader.number64) }) c := by
    have harity := (Reader.delimits_number64 c.arity.toNat_lt).map
      (f := fun n => ({ name := c.name, arity := UInt64.ofNat n } : CallRef))
    rwa [UInt64.ofNat_toNat] at harity
  exact (Reader.delimits_text h).bind hread

/-- The sizes of the texts of an operand fit one word. -/
def Operand.SizesFit : Operand → Prop
  | var v => v.SizesFit
  | result call => call.SizesFit
  | constant _ | intermediate _ | parameter _ => True

theorem Operand.delimits {o : Operand} (h : o.SizesFit) : Delimits o.write read o := by
  cases o with
  | var v => exact (Reader.delimits_short (by decide)).bind (Variable.delimits h).map
  | constant c => exact (Reader.delimits_short (by decide)).bind c.delimits.map
  | intermediate n =>
    have hread := (Reader.delimits_number32 n.toNat_lt).map
      (f := fun m => intermediate (UInt32.ofNat m))
    rw [UInt32.ofNat_toNat] at hread
    exact (Reader.delimits_short (by decide)).bind hread
  | result call => exact (Reader.delimits_short (by decide)).bind (CallRef.delimits h).map
  | parameter slot =>
    have hread := (Reader.delimits_number64 slot.toNat_lt).map
      (f := fun m => parameter (UInt64.ofNat m))
    rw [UInt64.ofNat_toNat] at hread
    exact (Reader.delimits_short (by decide)).bind hread

theorem Operator.mem_all (op : Operator) : op ∈ Operator.all := by
  cases op <;> decide

theorem Marker.mem_all (m : Marker) : m ∈ Marker.all := by
  cases m <;> decide

theorem Keyword.mem_all (k : Keyword) : k ∈ Keyword.all := by
  cases k <;> decide

/-- The sizes of the texts of an element fit one word. -/
def Element.SizesFit : Element → Prop
  | operand o => o.SizesFit
  | operator _ | marker _ | keyword _ => True

instance (e : Element) : Decidable e.SizesFit :=
  match e with
  | .operand (.var v) => inferInstanceAs (Decidable v.SizesFit)
  | .operand (.result c) => inferInstanceAs (Decidable (c.name.utf8ByteSize < UInt64.size))
  | .operand (.constant _) | .operand (.intermediate _) | .operand (.parameter _)
  | .operator _ | .marker _ | .keyword _ => .isTrue trivial

theorem Element.delimits {e : Element} (h : e.SizesFit) : Delimits e.write read e := by
  cases e with
  | operand o => exact (Reader.delimits_short (by decide)).bind (Operand.delimits h).map
  | operator op =>
    exact (Reader.delimits_short (by decide)).bind
      (Reader.delimits_code op.mem_all (by decide)).map
  | marker m =>
    exact (Reader.delimits_short (by decide)).bind
      (Reader.delimits_code m.mem_all (by decide)).map
  | keyword k =>
    exact (Reader.delimits_short (by decide)).bind
      (Reader.delimits_code k.mem_all (by decide)).map

/-! ## Programs -/

/-- The size of the name fits one word. -/
def Global.SizesFit (g : Global) : Prop :=
  g.name.utf8ByteSize < UInt64.size

instance (g : Global) : Decidable g.SizesFit :=
  inferInstanceAs (Decidable (g.name.utf8ByteSize < UInt64.size))

theorem Global.delimits {g : Global} (h : g.SizesFit) : Delimits g.write read g := by
  rw [write, List.append_assoc]
  exact (Reader.delimits_text h).bind <| g.type.delimits.bind (Reader.delimits_signed g.value).map

/-- The sizes of the texts and lists of a function fit one word. -/
structure Function.SizesFit (f : Function) : Prop where
  name : f.name.utf8ByteSize < UInt64.size
  parameters : f.parameters.length < UInt64.size ∧ ∀ v ∈ f.parameters, v.SizesFit
  body : ∀ code, f.body = some code → code.length < UInt64.size ∧ ∀ e ∈ code, e.SizesFit

instance (f : Function) : Decidable f.SizesFit :=
  decidable_of_iff (f.name.utf8ByteSize < UInt64.size ∧
      (f.parameters.length < UInt64.size ∧ ∀ v ∈ f.parameters, v.SizesFit) ∧
      ∀ code ∈ f.body, code.length < UInt64.size ∧ ∀ e ∈ code, e.SizesFit)
    ⟨fun h => ⟨h.1, h.2.1, h.2.2⟩, fun h => ⟨h.1, h.2, h.3⟩⟩

theorem Function.delimits {f : Function} (h : f.SizesFit) : Delimits f.write read f := by
  have hparameters : Delimits (writeList Variable.write f.parameters)
      (Reader.list Variable.read) f.parameters :=
    Reader.delimits_list h.parameters.1 fun v hv => Variable.delimits (h.parameters.2 v hv)
  have hbody : Delimits (writeOption (writeList Element.write) f.body)
      (Reader.option (Reader.list Element.read)) f.body := by
    refine Reader.delimits_option fun code hcode => ?_
    obtain ⟨hlength, helements⟩ := h.body code hcode
    exact Reader.delimits_list hlength fun e he => Element.delimits (helements e he)
  have hframe := (Reader.delimits_number64 f.frameSize.toNat_lt).map
    (f := fun n => { f with frameSize := UInt64.ofNat n })
  rw [UInt64.ofNat_toNat] at hframe
  simp only [write, List.append_assoc]
  exact (Reader.delimits_text h.name).bind <| f.returnType.delimits.bind <|
    hparameters.bind <| hbody.bind hframe

/-- The size of every text and the length of every list in the program fit one
word. -/
structure Program.SizesFit (p : Program) : Prop where
  globals : p.globals.length < UInt64.size ∧ ∀ g ∈ p.globals, g.SizesFit
  functions : p.functions.length < UInt64.size ∧ ∀ f ∈ p.functions, f.SizesFit

instance (p : Program) : Decidable p.SizesFit :=
  decidable_of_iff ((p.globals.length < UInt64.size ∧ ∀ g ∈ p.globals, g.SizesFit) ∧
      p.functions.length < UInt64.size ∧ ∀ f ∈ p.functions, f.SizesFit)
    ⟨fun h => ⟨h.1, h.2⟩, fun h => ⟨h.1, h.2⟩⟩

theorem Program.delimits {p : Program} (h : p.SizesFit) : Delimits p.write read p := by
  have hglobals : Delimits (writeList Global.write p.globals) (Reader.list Global.read) p.globals :=
    Reader.delimits_list h.globals.1 fun g hg => Global.delimits (h.globals.2 g hg)
  have hfunctions : Delimits (writeList Function.write p.functions)
      (Reader.list Function.read) p.functions :=
    Reader.delimits_list h.functions.1 fun f hf => Function.delimits (h.functions.2 f hf)
  exact hglobals.bind hfunctions.map

/-- A saved program is read back, whatever stands behind it, and no part of its
bytes is taken for a program. -/
theorem Program.ofBytes_write (p : Program) (h : p.SizesFit) :
    ofBytes p.write = .ok p ∧ (∀ rest, ofBytes (p.write ++ rest) = .ok p) ∧
      ∀ front, front <+: p.write → front ≠ p.write → ofBytes front = .error .endOfBytes := by
  have hdelimits := Program.delimits h
  have hwhole : ∀ rest, ofBytes (p.write ++ rest) = .ok p := by
    intro rest
    rw [ofBytes, hdelimits.whole rest]
    rfl
  refine ⟨?_, hwhole, ?_⟩
  · have hexact := hwhole []
    rwa [List.append_nil] at hexact
  · intro front hfront hne
    rw [ofBytes, hdelimits.cut front hfront hne]
    rfl

/-- A program with numbers at the ends of their ranges, a pointer to a pointer
and a name outside ASCII. -/
def Program.extremes : Program where
  globals := [{ name := "größe", type := .pointer (.pointer .char), value := Int64.minValue }]
  functions :=
    [{ name := "f", returnType := .void, frameSize := UInt64.ofNat (UInt64.size - 1)
       parameters :=
        [{ name := "a", type := .int, storage := .frame Int64.maxValue,
           length := some (UInt64.ofNat (UInt64.size - 1)) }]
       body := some [.operand (.intermediate (UInt32.ofNat (UInt32.size - 1))),
        .operand (.result ⟨"g", 0⟩), .operator .possibleArgument, .marker .functionEnd] },
     { name := "g", returnType := .int, frameSize := 0, parameters := [], body := none }]

theorem Program.ofBytes_write_extremes :
    extremes.SizesFit ∧ ofBytes extremes.write = .ok extremes ∧
      (∀ rest, ofBytes (extremes.write ++ rest) = .ok extremes) ∧
      ∀ front, front <+: extremes.write → front ≠ extremes.write →
        ofBytes front = .error .endOfBytes := by
  have hfits : extremes.SizesFit := by
    refine ⟨⟨by decide, ?_⟩, ⟨by decide, ?_⟩⟩
    · simp only [extremes, List.forall_mem_singleton, Global.SizesFit]
      decide
    · simp only [extremes, List.forall_mem_cons]
      refine ⟨⟨by decide, ⟨by decide, ?_⟩, ?_⟩, ⟨by decide, ⟨by decide, nofun⟩, nofun⟩, nofun⟩
      · simp only [List.forall_mem_singleton]
        exact ⟨by decide, trivial⟩
      · rintro code ⟨rfl⟩
        simp only [List.forall_mem_cons]
        exact ⟨by decide, trivial, (by decide : "g".utf8ByteSize < UInt64.size), trivial, trivial,
          nofun⟩
  exact ⟨hfits, Program.ofBytes_write extremes hfits⟩

end WordC

/-
Arrays are vectors of a fixed length.

An array is made for every finite number from zero to the greatest size, with that number
rounded down of elements.  From then on it is a map from the places below its length to
values: it is read and changed at whole numbers only, a change is a change at one place, and
what is rejected changes nothing.

* `ArrayOp`, `performAll` — operations on an array, carried out one after another;
* `Answers`, `Answering` — what operations give on a map from places to values;
* `lastSet` — the last value that operations set at a place;
* `conforms`, `answering_performAll` — one operation, and a sequence of them;
* `arrays_are_vectors` — making an array, and using it.
-/
import Lox.Proofs.Doubles
import Lox.Proofs.Holding
import Lox.Proofs.Recording

namespace Lox

open Eval

/-- An operation on an array. -/
inductive ArrayOp where
  | get (index : Value)
  | set (index v : Value)
  | read (name : Token)
  | write (name : Token) (v : Value)

/-- What an operation on a map from the places below `n` gives, and the map after it. -/
inductive Answers (id : Nat) {n : Nat} (a : Fin n → Value) :
    ArrayOp → Except Stop Value → (Fin n → Value) → Prop
  | get {index : Value} {i : Fin n} (hi : index.rational? = some (i.val : ℚ)) :
      Answers id a (.get index) (.ok (a i)) a
  | getRejected {index : Value} {f : Fault} {t : Token}
      (hi : ∀ i : Fin n, index.rational? ≠ some (i.val : ℚ)) (hf : f.code = "E409") :
      Answers id a (.get index) (.error (.fault f t)) a
  | set {index v : Value} {i : Fin n} (hi : index.rational? = some (i.val : ℚ)) :
      Answers id a (.set index v) (.ok v) (Function.update a i v)
  | setRejected {index v : Value} {f : Fault} {t : Token}
      (hi : ∀ i : Fin n, index.rational? ≠ some (i.val : ℚ)) (hf : f.code = "E409") :
      Answers id a (.set index v) (.error (.fault f t)) a
  | length {name : Token} (hname : name.lexeme = "length") :
      Answers id a (.read name) (.ok (.number (Float.ofNat n))) a
  | getter {name : Token} (hname : name.lexeme = "get") :
      Answers id a (.read name) (.ok (.native (.elementOf id))) a
  | setter {name : Token} (hname : name.lexeme = "set") :
      Answers id a (.read name) (.ok (.native (.storeInto id))) a
  | unknown {name t : Token} {f : Fault} (hname : name.lexeme ∉ ["length", "get", "set"])
      (hf : f.code = "E406") : Answers id a (.read name) (.error (.fault f t)) a
  | write {name t : Token} {v : Value} {f : Fault} (hf : f.code = "E405") :
      Answers id a (.write name v) (.error (.fault f t)) a

/-- What operations one after another give, and the map after them. -/
inductive Answering (id : Nat) {n : Nat} :
    (Fin n → Value) → List ArrayOp → List (Except Stop Value) → (Fin n → Value) → Prop
  | nil {a : Fin n → Value} : Answering id a [] [] a
  | cons {a b c : Fin n → Value} {op : ArrayOp} {ops : List ArrayOp} {r : Except Stop Value}
      {rs : List (Except Stop Value)} (h : Answers id a op r b) (hs : Answering id b ops rs c) :
      Answering id a (op :: ops) (r :: rs) c

/-- The value that an operation sets at a place. -/
def ArrayOp.setAt? (i : Nat) : ArrayOp → Option Value
  | set index v => if index.rational? = some (i : ℚ) then some v else none
  | _ => none

/-- The last value that operations set at a place, or the value that was there. -/
def lastSet (i : Nat) (ops : List ArrayOp) (v : Value) : Value :=
  ops.foldl (fun v op => (op.setAt? i).getD v) v

/-- Carries a computation out: its value, or the reason to stop, and the state after it. -/
def Eval.attempt {α : Type} (p : Eval α) (m : Machine) : Except Stop α × Machine :=
  match p m with
  | .ok a m => (.ok a, m)
  | .error stop m => (.error stop, m)

section

variable (host : Host) (run : Stmt → Eval Completion) (paren : Token) (id : Nat)

/-- An operation on the array with a number: a call of one of its methods, or an access to a
property. -/
def ArrayOp.perform : ArrayOp → Eval Value
  | get index => do
    let method ← getProperty (.array id) { kind := .identifier, lexeme := "get" }
    callValue host run paren method [index]
  | set index v => do
    let method ← getProperty (.array id) { kind := .identifier, lexeme := "set" }
    callValue host run paren method [index, v]
  | read name => getProperty (.array id) name
  | write name v => do
    setProperty (.array id) name v
    pure v

/-- Operations one after another, also after one that is rejected. -/
def performAll : List ArrayOp → Machine → List (Except Stop Value) × Machine
  | [], m => ([], m)
  | op :: ops, m =>
    let first := attempt (op.perform host run paren id) m
    let rest := performAll ops first.2
    (first.1 :: rest.1, rest.2)

end

theorem Eval.attempt_ok {α : Type} {p : Eval α} {m m' : Machine} {a : α} (h : p m = .ok a m') :
    attempt p m = (.ok a, m') := by
  unfold attempt
  rw [h]

theorem Eval.attempt_error {α : Type} {p : Eval α} {m m' : Machine} {stop : Stop}
    (h : p m = .error stop m') : attempt p m = (.error stop, m') := by
  unfold attempt
  rw [h]

/-! ### Elements as maps -/

namespace Elements

variable {n : Nat} {a : Fin n → Value}

theorem getD_ofFn (i : Fin n) (v : Value) : (Array.ofFn a).getD i.val v = a i := by
  simp [Array.getD]

theorem setIfInBounds_ofFn (i : Fin n) (v : Value) :
    (Array.ofFn a).setIfInBounds i.val v = Array.ofFn (Function.update a i v) := by
  apply Array.ext
  · simp
  · intro j hj hj'
    rw [Array.getElem_setIfInBounds (by simpa using hj')]
    simp [Function.update_apply, Fin.ext_iff, eq_comm]

theorem replicate_eq_ofFn (n : Nat) (v : Value) :
    Array.replicate n v = Array.ofFn fun _ : Fin n => v := by
  apply Array.ext
  · simp
  · simp

end Elements

/-! ### Calls of native functions -/

section

variable {m : Machine} (host : Host) (run : Stmt → Eval Completion) (paren : Token)

theorem callValue_native {f : Native} {arguments : List Value}
    (hlength : arguments.length = f.arity) : callValue host run paren (.native f) arguments m =
      catchExhausted paren (applyNative host paren f arguments) m := by
  have harity : ask (·.arity? (.native f)) m = .ok (some f.arity) m := rfl
  unfold callValue
  rw [bind_ok harity]
  dsimp only
  rw [if_neg (not_not_intro hlength)]
  rfl

theorem allowed_ok {α : Type} {e : Except Refusal α} {x : α} (h : e = .ok x) :
    allowed paren e m = .ok x m := by
  rw [h]
  rfl

theorem allowed_refused {α : Type} {e : Except Refusal α} {why : Refusal}
    (h : e = .error why) : allowed paren e m = .error (.fault (.refused why) paren) m := by
  rw [h]
  rfl

/-- A new array holds as many nils as its size asks for. -/
theorem callValue_makeArray {size : Value} {n : Nat} (h : Elements.sizeOf? size = .ok n) :
    callValue host run paren (.native .makeArray) [size] m =
      .ok (.array m.heap.arrays.size)
        (m.withArrays (m.heap.arrays.push (Array.ofFn fun _ : Fin n => .nil))) := by
  have hmake : Elements.make size = .ok (Array.ofFn fun _ : Fin n => .nil) := by
    rw [Elements.make, h, ← Elements.replicate_eq_ofFn]
    rfl
  rw [callValue_native host run paren rfl]
  exact (catches paren _).ok (bind_ok (allowed_ok paren hmake))

theorem callValue_makeArray_refused {size : Value} {why : Refusal}
    (h : Elements.sizeOf? size = .error why) :
    callValue host run paren (.native .makeArray) [size] m =
      .error (.fault (.refused why) paren) m := by
  have hmake : Elements.make size = .error why := by
    rw [Elements.make, h]
    rfl
  rw [callValue_native host run paren rfl]
  exact (catches paren _).error (e := .fault (.refused why) paren)
    (bind_error (allowed_refused paren hmake))

theorem callValue_elementOf {id i : Nat} {index : Value}
    (h : Elements.place (m.heap.elements id).size index = .ok i) :
    callValue host run paren (.native (.elementOf id)) [index] m =
      .ok ((m.heap.elements id).getD i .nil) m := by
  have hget : Elements.get (m.heap.elements id) index =
      .ok ((m.heap.elements id).getD i .nil) := by
    rw [Elements.get, h]
    rfl
  rw [callValue_native host run paren rfl]
  exact (catches paren _).ok (allowed_ok paren hget)

theorem callValue_elementOf_refused {id : Nat} {index : Value} {why : Refusal}
    (h : Elements.place (m.heap.elements id).size index = .error why) :
    callValue host run paren (.native (.elementOf id)) [index] m =
      .error (.fault (.refused why) paren) m := by
  have hget : Elements.get (m.heap.elements id) index = .error why := by
    rw [Elements.get, h]
    rfl
  rw [callValue_native host run paren rfl]
  exact (catches paren _).error (e := .fault (.refused why) paren) (allowed_refused paren hget)

theorem callValue_storeInto {id i : Nat} {index : Value} (v : Value)
    (h : Elements.place (m.heap.elements id).size index = .ok i) :
    callValue host run paren (.native (.storeInto id)) [index, v] m =
      .ok v (m.withArrays (m.heap.arrays.modify id fun es => es.setIfInBounds i v)) := by
  have hask : ask (fun h => Elements.place (h.elements id).size index) m = .ok (.ok i) m :=
    congrArg (EStateM.Result.ok · m) h
  rw [callValue_native host run paren rfl]
  exact (catches paren _).ok (bind_ok hask)

theorem callValue_storeInto_refused {id : Nat} {index : Value} (v : Value) {why : Refusal}
    (h : Elements.place (m.heap.elements id).size index = .error why) :
    callValue host run paren (.native (.storeInto id)) [index, v] m =
      .error (.fault (.refused why) paren) m := by
  have hask : ask (fun h => Elements.place (h.elements id).size index) m = .ok (.error why) m :=
    congrArg (EStateM.Result.ok · m) h
  rw [callValue_native host run paren rfl]
  exact (catches paren _).error (e := .fault (.refused why) paren) (bind_ok hask)

section Properties

variable {id : Nat} {name : Token}

theorem arrayProperty_length (h : name.lexeme = "length") : arrayProperty id name m =
    .ok (.number (Float.ofNat (m.heap.elements id).size)) m := by
  unfold arrayProperty
  rw [h]
  rfl

theorem arrayProperty_get (h : name.lexeme = "get") :
    arrayProperty id name m = .ok (.native (.elementOf id)) m := by
  unfold arrayProperty
  rw [h]
  rfl

theorem arrayProperty_set (h : name.lexeme = "set") :
    arrayProperty id name m = .ok (.native (.storeInto id)) m := by
  unfold arrayProperty
  rw [h]
  rfl

theorem arrayProperty_unknown (h : name.lexeme ∉ ["length", "get", "set"]) :
    arrayProperty id name m = .error (.fault (.undefinedProperty name.lexeme) name) m := by
  unfold arrayProperty
  generalize name.lexeme = property at h ⊢
  split
  · simp at h
  · simp at h
  · simp at h
  · rfl

end Properties

end

/-! ### One operation -/

/-- The machine with other elements in an array. -/
def Machine.withElements (m : Machine) (id : Nat) {n : Nat} (a : Fin n → Value) : Machine :=
  m.withArrays (m.heap.arrays.setIfInBounds id (Array.ofFn a))

section

variable {host : Host} {run : Stmt → Eval Completion} {paren : Token} {id n : Nat}
  {a : Fin n → Value} {m : Machine}

theorem elements_withElements (hid : id < m.heap.arrays.size) :
    (m.withElements id a).heap.elements id = Array.ofFn a := by
  change (m.heap.arrays.setIfInBounds id (Array.ofFn a)).getD id #[] = _
  rw [getD_setIfInBounds hid, if_pos rfl]

theorem withElements_self (h : m.heap.arrays[id]? = some (Array.ofFn a)) :
    m.withElements id a = m := by
  obtain ⟨hid, h⟩ := Array.getElem?_eq_some_iff.mp h
  have hsame : m.heap.arrays.setIfInBounds id (Array.ofFn a) = m.heap.arrays := by
    rw [← h, Array.setIfInBounds_def, dif_pos hid, Array.set_getElem_self]
  rw [Machine.withElements, hsame]
  rfl

/-- What is stored in an array changes the map at one place. -/
theorem modify_withElements {i : Fin n} {v : Value} :
    (m.withElements id a).withArrays ((m.withElements id a).heap.arrays.modify id fun es =>
      es.setIfInBounds i v) = m.withElements id (Function.update a i v) := by
  have harrays : (m.heap.arrays.setIfInBounds id (Array.ofFn a)).modify id
      (fun es => es.setIfInBounds i v) =
        m.heap.arrays.setIfInBounds id (Array.ofFn (Function.update a i v)) := by
    apply Array.ext_getElem?
    intro j
    rw [Array.getElem?_modify, Array.getElem?_setIfInBounds, Array.getElem?_setIfInBounds,
      ← Elements.setIfInBounds_ofFn]
    by_cases hj : id = j
    · simp [hj]
    · simp [hj]
  exact congrArg m.withArrays harrays

theorem place_withElements (hid : id < m.heap.arrays.size) {index : Value} {i : Fin n}
    (hi : index.rational? = some (i.val : ℚ)) :
    Elements.place ((m.withElements id a).heap.elements id).size index = .ok i.val := by
  rw [elements_withElements hid, Array.size_ofFn]
  exact Elements.place_eq_ok_iff.mpr ⟨i.isLt, hi⟩

theorem place_withElements_rejected (hid : id < m.heap.arrays.size) {index : Value}
    (hi : ¬∃ i : Fin n, index.rational? = some (i.val : ℚ)) :
    ∃ why, Elements.place ((m.withElements id a).heap.elements id).size index = .error why := by
  rw [elements_withElements hid, Array.size_ofFn]
  cases hplace : Elements.place n index with
  | error why => exact ⟨why, rfl⟩
  | ok i =>
    obtain ⟨hlt, hexact⟩ := Elements.place_eq_ok_iff.mp hplace
    exact absurd ⟨⟨i, hlt⟩, hexact⟩ hi

variable (host run paren a)

/-- With the map `a` in the array, the machine gives what the map gives, and is left with the
map after the operation in the array. -/
def Conforms (m : Machine) (id : Nat) (op : ArrayOp) : Prop :=
  ∃ r b, Answers id a op r b ∧
    attempt (op.perform host run paren id) (m.withElements id a) = (r, m.withElements id b)

theorem conforms_get (hid : id < m.heap.arrays.size) (index : Value) :
    Conforms host run paren a m id (.get index) := by
  by_cases hi : ∃ i : Fin n, index.rational? = some (i.val : ℚ)
  · obtain ⟨i, hi⟩ := hi
    have hv := callValue_elementOf host run paren (place_withElements (a := a) hid hi)
    rw [elements_withElements hid, Elements.getD_ofFn] at hv
    exact ⟨_, _, .get hi, attempt_ok ((bind_ok rfl).trans hv)⟩
  · obtain ⟨why, hwhy⟩ := place_withElements_rejected (a := a) hid hi
    exact ⟨_, _, .getRejected (not_exists.mp hi) rfl,
      attempt_error ((bind_ok rfl).trans (callValue_elementOf_refused host run paren hwhy))⟩

theorem conforms_set (hid : id < m.heap.arrays.size) (index v : Value) :
    Conforms host run paren a m id (.set index v) := by
  by_cases hi : ∃ i : Fin n, index.rational? = some (i.val : ℚ)
  · obtain ⟨i, hi⟩ := hi
    have hv := callValue_storeInto host run paren v (place_withElements (a := a) hid hi)
    rw [modify_withElements] at hv
    exact ⟨_, _, .set hi, attempt_ok ((bind_ok rfl).trans hv)⟩
  · obtain ⟨why, hwhy⟩ := place_withElements_rejected (a := a) hid hi
    exact ⟨_, _, .setRejected (not_exists.mp hi) rfl,
      attempt_error ((bind_ok rfl).trans (callValue_storeInto_refused host run paren v hwhy))⟩

theorem conforms_read (hid : id < m.heap.arrays.size) (name : Token) :
    Conforms host run paren a m id (.read name) := by
  by_cases hlength : name.lexeme = "length"
  · have hv : arrayProperty id name (m.withElements id a) = _ := arrayProperty_length hlength
    rw [elements_withElements hid, Array.size_ofFn] at hv
    exact ⟨_, _, .length hlength, attempt_ok hv⟩
  by_cases hget : name.lexeme = "get"
  · exact ⟨_, _, .getter hget, attempt_ok (arrayProperty_get hget)⟩
  by_cases hset : name.lexeme = "set"
  · exact ⟨_, _, .setter hset, attempt_ok (arrayProperty_set hset)⟩
  have hunknown : name.lexeme ∉ ["length", "get", "set"] := by simp [hlength, hget, hset]
  exact ⟨_, _, .unknown hunknown rfl, attempt_error (arrayProperty_unknown hunknown)⟩

/-- An operation on an array is one on the map from its places to its elements. -/
theorem conforms (hid : id < m.heap.arrays.size) (op : ArrayOp) :
    Conforms host run paren a m id op := by
  cases op with
  | get index => exact conforms_get host run paren a hid index
  | set index v => exact conforms_set host run paren a hid index v
  | read name => exact conforms_read host run paren a hid name
  | write name v => exact ⟨_, _, .write rfl, attempt_error (bind_error rfl)⟩

/-! ### A sequence of operations -/

theorem answering_performAll (hid : id < m.heap.arrays.size) (ops : List ArrayOp) :
    ∀ a : Fin n → Value, ∃ rs b, Answering id a ops rs b ∧
      performAll host run paren id ops (m.withElements id a) = (rs, m.withElements id b) := by
  induction ops with
  | nil => exact fun a => ⟨[], a, .nil, rfl⟩
  | cons op ops ih =>
    intro a
    obtain ⟨r, b, hanswers, hperform⟩ := conforms host run paren a hid op
    obtain ⟨rs, c, hanswering, hrest⟩ := ih b
    refine ⟨r :: rs, c, .cons hanswers hanswering, ?_⟩
    unfold performAll
    rw [hperform]
    dsimp only
    rw [hrest]

end

/-- After an operation, the map holds at each place the value that was set there, or what it
held before. -/
theorem Answers.apply_eq {id n : Nat} {a b : Fin n → Value} {op : ArrayOp}
    {r : Except Stop Value} (h : Answers id a op r b) (i : Fin n) :
    b i = (op.setAt? i).getD (a i) := by
  cases h with
  | @set index v j hj =>
    have hplace : some (j.val : ℚ) = some (i.val : ℚ) ↔ i = j := by
      rw [Option.some.injEq, Nat.cast_inj, Fin.ext_iff, eq_comm]
    rw [ArrayOp.setAt?, hj, Function.update_apply]
    by_cases hi : i = j
    · rw [if_pos hi, if_pos (hplace.mpr hi)]
      rfl
    · rw [if_neg hi, if_neg (mt hplace.mp hi)]
      rfl
  | @setRejected index v f t hi hf =>
    rw [ArrayOp.setAt?, if_neg (hi i)]
    rfl
  | _ => rfl

theorem Answering.apply_eq {id n : Nat} {a b : Fin n → Value} {ops : List ArrayOp}
    {rs : List (Except Stop Value)} (h : Answering id a ops rs b) (i : Fin n) :
    b i = lastSet i ops (a i) := by
  induction h with
  | nil => rfl
  | cons h _ ih => rw [ih, h.apply_eq i, lastSet, lastSet, List.foldl_cons]

/-- Arrays are vectors of a fixed length.  An array is made for every value that stands for a
number from zero to `2 ^ 24`, as both zeros do for zero; it has that number rounded down of
elements, and they are nil.  Any other size is rejected and makes nothing.  From then on, for
every sequence of operations, the array is a map from the places below its length: its length
stays the same; an index is accepted if it stands for one of these places; what is read there
is the last value that was set there, or what was there before; what is set changes this place
alone; and whatever is rejected changes nothing.  Nothing else in the machine changes. -/
theorem arrays_are_vectors (host : Host) (run : Stmt → Eval Completion) (paren : Token)
    (m : Machine) :
    (∀ size : Value,
      (∀ r : ℚ, size.rational? = some r → 0 ≤ r → r ≤ 2 ^ 24 →
        callValue host run paren (.native .makeArray) [size] m =
          .ok (.array m.heap.arrays.size)
            (m.withArrays (m.heap.arrays.push (Array.ofFn fun _ : Fin ⌊r⌋₊ => .nil)))) ∧
      ((¬∃ r : ℚ, size.rational? = some r ∧ 0 ≤ r ∧ r ≤ 2 ^ 24) →
        ∃ f : Fault, f.code = "E409" ∧
          callValue host run paren (.native .makeArray) [size] m = .error (.fault f paren) m)) ∧
    (∀ (id n : Nat) (a : Fin n → Value), m.heap.arrays[id]? = some (Array.ofFn a) →
      ∀ ops : List ArrayOp, ∃ rs b,
        performAll host run paren id ops m =
          (rs, m.withArrays (m.heap.arrays.setIfInBounds id (Array.ofFn b))) ∧
        Answering id a ops rs b ∧ ∀ i : Fin n, b i = lastSet i ops (a i)) ∧
    ∀ n ≤ 2 ^ 24, Value.rational? (.number (Float.ofNat n)) = some (n : ℚ) := by
  have hmax : (Elements.maxSize : ℚ) = 2 ^ 24 := Nat.cast_pow 2 24
  refine ⟨fun size => ⟨fun r hexact hr hr' => ?_, fun hsize => ?_⟩, fun id n a ha ops => ?_,
    fun n hn => ?_⟩
  · exact callValue_makeArray host run paren
      (Elements.sizeOf?_eq_ok_iff.mpr ⟨r, hexact, hr, hmax ▸ hr', rfl⟩)
  · cases hsizeOf : Elements.sizeOf? size with
    | ok k =>
      obtain ⟨r, hexact, hr, hr', -⟩ := Elements.sizeOf?_eq_ok_iff.mp hsizeOf
      exact absurd ⟨r, hexact, hr, hmax ▸ hr'⟩ hsize
    | error why => exact ⟨.refused why, rfl, callValue_makeArray_refused host run paren hsizeOf⟩
  -- The array is the map already, so the machine is the one with the map in it.
  · obtain ⟨hid, -⟩ := Array.getElem?_eq_some_iff.mp ha
    obtain ⟨rs, b, hanswering, hperform⟩ := answering_performAll host run paren hid ops a
    rw [withElements_self ha] at hperform
    exact ⟨rs, b, hperform, hanswering, hanswering.apply_eq⟩
  · exact Value.rational?_ofNat (hn.trans_lt (by decide))

/-- What is read at a place is what the map holds there. -/
theorem Answers.get_eq {id n : Nat} {a b : Fin n → Value} {index : Value}
    {r : Except Stop Value} (h : Answers id a (.get index) r b) {i : Fin n}
    (hi : index.rational? = some (i.val : ℚ)) : r = .ok (a i) ∧ b = a := by
  cases h with
  | getRejected hno => exact absurd hi (hno i)
  | @get _ j hj =>
    have hplace : (i.val : ℚ) = j.val := Option.some.inj (hi.symm.trans hj)
    obtain rfl : i = j := Fin.ext (Nat.cast_injective hplace)
    exact ⟨rfl, rfl⟩

/-- What is set at a place is there afterwards. -/
theorem Answers.set_eq {id n : Nat} {a b : Fin n → Value} {index v : Value}
    {r : Except Stop Value} (h : Answers id a (.set index v) r b) {i : Fin n}
    (hi : index.rational? = some (i.val : ℚ)) : r = .ok v ∧ b = Function.update a i v := by
  cases h with
  | setRejected hno => exact absurd hi (hno i)
  | @set _ _ j hj =>
    have hplace : (i.val : ℚ) = j.val := Option.some.inj (hi.symm.trans hj)
    obtain rfl : i = j := Fin.ext (Nat.cast_injective hplace)
    exact ⟨rfl, rfl⟩

/-- The size two and a half makes an array of two nils.  A text is set at the place one, and is
read there again; there is no place two. -/
theorem arrays_are_vectors_half :
    callValue .small (exec .small 0) default (.native .makeArray) [.number 2.5] .initial =
      .ok (.array 0) (Machine.initial.withArrays #[#[.nil, .nil]]) ∧
    ∃ f t, f.code = "E409" ∧ performAll .small (exec .small 0) default 0
        [.set (.number (Float.ofNat 1)) (.text "one"), .get (.number (Float.ofNat 1)),
          .get (.number (Float.ofNat 2))] (Machine.initial.withArrays #[#[.nil, .nil]]) =
      ([.ok (.text "one"), .ok (.text "one"), .error (.fault f t)],
        Machine.initial.withArrays #[#[.nil, .text "one"]]) := by
  constructor
  · have hview : Binary64.ofFloat 2.5 = .finite false 5629499534213120 (-51) := by decide +kernel
    have hexact : (Value.number 2.5).rational? = some (5 / 2) := by
      rw [Value.rational?, hview, Binary64.rational?, if_neg Bool.false_ne_true, Binary64.magnitude]
      norm_num
    have hfloor : ⌊(5 / 2 : ℚ)⌋₊ = 2 := by norm_num
    have hmade := ((arrays_are_vectors .small (exec .small 0) default .initial).1
      (.number 2.5)).1 (5 / 2) hexact (by norm_num) (by norm_num)
    rw [hmade, hfloor]
    rfl
  · obtain ⟨-, hoperate, hexact⟩ := arrays_are_vectors .small (exec .small 0) default
      (Machine.initial.withArrays #[#[.nil, .nil]])
    have hone := hexact 1 (by norm_num)
    have htwo := hexact 2 (by norm_num)
    obtain ⟨rs, b, hperform, hanswering, -⟩ := hoperate 0 2 (fun _ => .nil) rfl
      [.set (.number (Float.ofNat 1)) (.text "one"), .get (.number (Float.ofNat 1)),
        .get (.number (Float.ofNat 2))]
    -- Three operations have three answers.
    rcases hanswering with _ | ⟨hset, _ | ⟨hget, _ | ⟨hpast, _ | _⟩⟩⟩
    obtain ⟨rfl, rfl⟩ := hset.set_eq (i := 1) hone
    obtain ⟨rfl, rfl⟩ := hget.get_eq (i := 1) hone
    cases hpast with
    | @get _ i hi =>
      have hplace : ((2 : ℕ) : ℚ) = i.val := Option.some.inj (htwo.symm.trans hi)
      exact absurd i.isLt (Nat.cast_injective hplace ▸ Nat.lt_irrefl 2)
    | @getRejected _ f t hno hf => exact ⟨f, t, hf, hperform⟩

end Lox

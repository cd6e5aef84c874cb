import XviOs.ByteBuffer.Model
import XviOs.Library.Slices

namespace XviOs.ByteBuffer

open Library.ByteOrder Library.ThrowingProgram Library.Slices

namespace Output

/-- The iterator is within the vector, and that is not larger than it can be. -/
structure Valid (s : Output) : Prop where
  pos_le : s.pos ≤ s.range.length
  length_le : s.range.length ≤ maxSize

/-- The buffer after `data` has been put in at its position. -/
def put (s : Output) (data : List UInt8) : Output :=
  { s with range := splice s.range s.pos data, pos := s.pos + data.length }

variable {s : Output} {data data' : List UInt8}

theorem get_apply (s : Output) : (get : Program Error Output Output) s = (.ok s, s) := rfl

theorem put_put (h : s.pos ≤ s.range.length) (data data' : List UInt8) :
    (s.put data).put data' = s.put (data ++ data') := by
  simp only [put, splice_splice h, List.length_append, Nat.add_assoc]

theorem Valid.put (h : s.Valid) (hdata : s.pos + data.length ≤ maxSize) : (s.put data).Valid := by
  have hlen := length_splice h.pos_le data
  have hle := h.length_le
  constructor
  · change s.pos + data.length ≤ (splice s.range s.pos data).length
    omega
  · change (splice s.range s.pos data).length ≤ maxSize
    omega

theorem writeNext_eq (h : s.Valid) (b : UInt8) (hb : s.pos < maxSize) : writeNext b s = (.ok (), s.put [b]) := by
  by_cases hend : s.pos = s.range.length
  · have hpush : pushBack b s = (.ok (), { s with range := s.range ++ [b] }) := by
      apply (bind_ok (get_apply s)).trans
      rw [if_neg (by rw [size]; omega)]
      rfl
    apply (bind_ok (get_apply s)).trans
    rw [if_pos hend]
    apply (bind_ok hpush).trans
    have hsplice : splice s.range s.pos [b] = s.range ++ [b] := by
      rw [splice, hend, List.take_length, List.drop_eq_nil_of_le (Nat.le_add_right _ _), List.append_nil]
    rw [put, hsplice]
    rfl
  · have hlt := Nat.lt_of_le_of_ne h.pos_le hend
    apply (bind_ok (get_apply s)).trans
    have hset : s.range.set s.pos b = splice s.range s.pos [b] := by
      rw [List.set_eq_take_append_cons_drop, if_pos hlt]
      rfl
    rw [if_neg hend, hset]
    rfl

theorem writeAll_eq (h : s.Valid) (hdata : s.pos + data.length ≤ maxSize) :
    writeAll data s = (.ok (), s.put data) := by
  induction data generalizing s with
  | nil => rw [writeAll, put, splice_nil]; rfl
  | cons b data ih =>
    rw [List.length_cons] at hdata
    apply (bind_ok (writeNext_eq h b (by omega))).trans
    rw [ih (h.put (by rw [List.length_singleton]; omega)), put_put h.pos_le]
    · rfl
    · change s.pos + 1 + data.length ≤ maxSize
      omega

/-- A write puts the bytes in at the position, unless the vector would be too large. -/
theorem writeData_eq (h : s.Valid) (hdata : s.pos + data.length ≤ maxSize) :
    writeData data s = (.ok (), s.put data) := by
  apply (bind_ok (get_apply s)).trans
  by_cases hgrow : s.size < s.tell + data.length
  · rw [if_pos hgrow]
    let pad := List.replicate (s.tell + data.length - s.size) (0 : UInt8)
    have hpad : s.range.length + pad.length = s.pos + data.length := by
      rw [List.length_replicate]
      exact Nat.add_sub_of_le hgrow.le
    have hgrown : grow (s.tell + data.length) s = (.ok (), { s with range := s.range ++ pad }) := by
      apply (bind_ok (get_apply s)).trans
      rw [tell, if_neg (Nat.not_lt.mpr hdata)]
      rfl
    have hvalid : ({ s with range := s.range ++ pad } : Output).Valid := by
      have hpos := h.pos_le
      constructor
      · change s.pos ≤ (s.range ++ pad).length
        rw [List.length_append]
        omega
      · change (s.range ++ pad).length ≤ maxSize
        rw [List.length_append]
        omega
    apply (bind_ok hgrown).trans
    rw [writeAll_eq hvalid hdata, put, splice_append h.pos_le hpad]
    rfl
  · rw [if_neg hgrow]
    exact writeAll_eq h hdata

theorem writeData_lengthError (h : s.Valid) (hdata : maxSize < s.pos + data.length) :
    writeData data s = (.error .lengthError, s) := by
  have hgrow : s.size < s.tell + data.length := Nat.lt_of_le_of_lt h.length_le hdata
  have hgrown : grow (s.tell + data.length) s = (.error .lengthError, s) := by
    apply (bind_ok (get_apply s)).trans
    rw [tell, if_pos hdata]
    rfl
  apply (bind_ok (get_apply s)).trans
  rw [if_pos hgrow]
  exact bind_error hgrown

end Output

end XviOs.ByteBuffer

namespace XviOs.ByteBuffer

open Library.ByteOrder Library.ThrowingProgram Library.Slices

variable {native : Endian} {t : IntType} {rest data : List UInt8} {n : ℕ}

/-- The order that a buffer has after a value is written or read. -/
def Format.orderAfter (f : Format) (e : Endian) : Endian := if f.fixed then e else f.order

def Item.bytes (i : Item) : List UInt8 := encode i.format.order i.value

/-- A single byte has no order. -/
theorem encode_one (h : t.width = .one) (e : Endian) (x : t.Value) : encode e x = [UInt8.ofNat (t.toUnsigned x)] := by
  rw [encode, IntType.size, h]
  cases e <;> rfl

namespace Output

variable {s : Output}

theorem writeEndian_eq (h : s.Valid) (e : Endian) (x : t.Value) (hx : s.pos + t.size ≤ maxSize) :
    writeEndian native t e x.1 s = (.ok (), s.put (encode e x)) := by
  rw [writeEndian, IntType.convert_value, objectBytes_store]
  exact writeData_eq h (by rwa [length_encode])

theorem write_eq (h : s.Valid) (x : t.Value) (hx : s.pos + t.size ≤ maxSize) :
    write native t x.1 s = (.ok (), s.put (encode s.endian x)) := by
  rw [write]
  by_cases hone : t.width = .one
  · have hsize : t.size = 1 := by rw [IntType.size, hone]; rfl
    rw [if_pos hone, IntType.convert_value, encode_one hone]
    rw [hsize] at hx
    exact writeData_eq h hx
  · rw [if_neg hone]
    apply (bind_ok (get_apply s)).trans
    have horder : (if s.endian = .little then writeEndian native t .little x.1 else writeEndian native t .big x.1) =
        writeEndian native t s.endian x.1 := by
      cases s.endian <;> rfl
    rw [horder]
    exact writeEndian_eq h s.endian x hx

theorem setEndian_apply (e : Endian) (s : Output) : setEndian e s = (.ok (), { s with endian := e }) := rfl

theorem writeItem_eq (h : s.Valid) (i : Item) (hi : s.pos + i.format.type.size ≤ maxSize) :
    writeItem native i s = (.ok (), { s.put i.bytes with endian := i.format.orderAfter s.endian }) := by
  obtain ⟨⟨t, e, fixed⟩, x⟩ := i
  cases fixed with
  | true => exact writeEndian_eq h e x hi
  | false =>
    apply (bind_ok (setEndian_apply e s)).trans
    exact write_eq (s := { s with endian := e }) ⟨h.pos_le, h.length_le⟩ x hi

theorem writeEndian_lengthError (h : s.Valid) (e : Endian) (x : t.Value) (hx : maxSize < s.pos + t.size) :
    writeEndian native t e x.1 s = (.error .lengthError, s) := by
  rw [writeEndian, IntType.convert_value, objectBytes_store]
  exact writeData_lengthError h (by rwa [length_encode])

theorem write_lengthError (h : s.Valid) (x : t.Value) (hx : maxSize < s.pos + t.size) :
    write native t x.1 s = (.error .lengthError, s) := by
  rw [write]
  split_ifs with hone
  · rw [IntType.convert_value, ← encode_one hone .little]
    exact writeData_lengthError h (by rwa [length_encode])
  · apply (bind_ok (get_apply s)).trans
    split_ifs
    · exact writeEndian_lengthError h .little x hx
    · exact writeEndian_lengthError h .big x hx

theorem writeItem_lengthError (h : s.Valid) (i : Item) (hi : maxSize < s.pos + i.format.type.size) :
    writeItem native i s = (.error .lengthError, { s with endian := i.format.orderAfter s.endian }) := by
  obtain ⟨⟨t, e, fixed⟩, x⟩ := i
  cases fixed with
  | true => exact writeEndian_lengthError h e x hi
  | false =>
    apply (bind_ok (setEndian_apply e s)).trans
    exact write_lengthError (s := { s with endian := e }) ⟨h.pos_le, h.length_le⟩ x hi

end Output

namespace Input

variable {s : Input}

theorem get_apply (s : Input) : (get : Program Error Input Input) s = (.ok s, s) := rfl

theorem readData_eq (h : s.range.drop s.pos = data ++ rest) :
    readData data.length s = (.ok data, { s with pos := s.pos + data.length }) := by
  have hlen := congrArg List.length h
  rw [List.length_drop, List.length_append] at hlen
  apply (bind_ok (get_apply s)).trans
  rw [if_neg (by rw [remaining]; omega), h, List.take_left]
  rfl

theorem readData_underrun (h : s.remaining < n) :
    readData n s = (.error (.outOfRange "buffer underrun"), s) := by
  apply (bind_ok (get_apply s)).trans
  rw [if_pos h]
  rfl

theorem readEndian_eq (e : Endian) (x : t.Value) (h : s.range.drop s.pos = encode e x ++ rest) :
    readEndian native t e s = (.ok x, { s with pos := s.pos + t.size }) := by
  have hread := readData_eq h
  rw [length_encode] at hread
  have hdata : readDataTo t.size (List.replicate t.size 0) s = (.ok (encode e x), { s with pos := s.pos + t.size }) := by
    apply (bind_ok hread).trans
    rw [List.drop_eq_nil_of_le (List.length_replicate (n := t.size) (a := (0 : UInt8))).le, List.append_nil]
    rfl
  apply (bind_ok hdata).trans
  have hvalue : (⟨ofObjectBytes native (encode e x)⟩ : FixedEndianType native t e).value = x := by
    rw [← objectBytes_store native e x, ofObjectBytes_objectBytes]
    exact EndianType.value_ofValue _ x
  rw [hvalue]
  rfl

theorem readEndian_underrun (e : Endian) (h : s.remaining < t.size) :
    readEndian native t e s = (.error (.outOfRange "buffer underrun"), s) :=
  bind_error (bind_error (readData_underrun h))

theorem read_eq (x : t.Value) (h : s.range.drop s.pos = encode s.endian x ++ rest) :
    read native t s = (.ok x, { s with pos := s.pos + t.size }) := by
  rw [read]
  by_cases hone : t.width = .one
  · have hsize : t.size = 1 := by rw [IntType.size, hone]; rfl
    rw [encode_one hone] at h
    have hbyte : readByte s = (.ok (UInt8.ofNat (t.toUnsigned x)), { s with pos := s.pos + 1 }) := by
      apply (bind_ok (readData_eq h)).trans
      rfl
    rw [if_pos hone, hsize]
    apply (bind_ok hbyte).trans
    have hvalue : (UInt8.ofNat (t.toUnsigned x)).toNat = t.toUnsigned x := by
      rw [UInt8.toNat_ofNat']
      apply Nat.mod_eq_of_lt
      have hlt := IntType.toUnsigned_lt x
      rwa [IntType.modulus, hsize] at hlt
    rw [hvalue, IntType.convert_toUnsigned]
    rfl
  · rw [if_neg hone]
    apply (bind_ok (get_apply s)).trans
    have horder : (if s.endian = .little then readEndian native t .little else readEndian native t .big) =
        readEndian native t s.endian := by
      cases s.endian <;> rfl
    rw [horder]
    exact readEndian_eq s.endian x h

theorem read_underrun (h : s.remaining < t.size) :
    read native t s = (.error (.outOfRange "buffer underrun"), s) := by
  rw [read]
  split_ifs with hone
  · have hsize : t.size = 1 := by rw [IntType.size, hone]; rfl
    exact bind_error (bind_error (readData_underrun (hsize ▸ h)))
  · apply (bind_ok (get_apply s)).trans
    split_ifs
    · exact readEndian_underrun .little h
    · exact readEndian_underrun .big h

theorem setEndian_apply (e : Endian) (s : Input) : setEndian e s = (.ok (), { s with endian := e }) := rfl

theorem readItem_eq (i : Item) (h : s.range.drop s.pos = i.bytes ++ rest) :
    readItem native i.format s =
      (.ok i.value, { s with pos := s.pos + i.format.type.size, endian := i.format.orderAfter s.endian }) := by
  obtain ⟨⟨t, e, fixed⟩, x⟩ := i
  cases fixed with
  | true => exact readEndian_eq e x h
  | false =>
    apply (bind_ok (setEndian_apply e s)).trans
    exact read_eq (s := { s with endian := e }) x h

theorem readItem_underrun (f : Format) (h : s.remaining < f.type.size) :
    readItem native f s = (.error (.outOfRange "buffer underrun"), { s with endian := f.orderAfter s.endian }) := by
  obtain ⟨t, e, fixed⟩ := f
  cases fixed with
  | true => exact readEndian_underrun e h
  | false =>
    apply (bind_ok (setEndian_apply e s)).trans
    exact read_underrun (s := { s with endian := e }) h

end Input

/-- The bytes of values that are written one after another. -/
def bytesOfItems (items : List Item) : List UInt8 := items.flatMap Item.bytes

/-- The order that a buffer has after values are written or read. -/
def orderAfterItems (items : List Item) (e : Endian) : Endian := items.foldl (fun e i => i.format.orderAfter e) e

theorem length_bytesOfItems_cons (i : Item) (items : List Item) :
    (bytesOfItems (i :: items)).length = i.format.type.size + (bytesOfItems items).length := by
  rw [bytesOfItems, List.flatMap_cons, List.length_append, Item.bytes, length_encode]
  rfl

theorem Output.writeItems_eq {s : Output} {items : List Item} (h : s.Valid)
    (hitems : s.pos + (bytesOfItems items).length ≤ maxSize) :
    writeItems native items s =
      (.ok (), { s.put (bytesOfItems items) with endian := orderAfterItems items s.endian }) := by
  induction items generalizing s with
  | nil =>
    change ((Except.ok (), s) : Except Error Unit × Output) = _
    rw [bytesOfItems, List.flatMap_nil, put, splice_nil]
    rfl
  | cons i items ih =>
    rw [length_bytesOfItems_cons] at hitems
    have hi : s.pos + i.format.type.size ≤ maxSize := by omega
    have hput : (s.put i.bytes).Valid := h.put (by rwa [Item.bytes, length_encode])
    let s' : Output := { s.put i.bytes with endian := i.format.orderAfter s.endian }
    have hs' : s'.Valid := ⟨hput.pos_le, hput.length_le⟩
    have hpos : s'.pos = s.pos + i.format.type.size := congrArg (s.pos + ·) (length_encode _ _)
    apply (bind_ok (writeItem_eq h i hi)).trans
    apply (ih hs' (by omega)).trans
    have htwice := put_put h.pos_le i.bytes (bytesOfItems items)
    have hbytes : i.bytes ++ bytesOfItems items = bytesOfItems (i :: items) := List.flatMap_cons.symm
    rw [hbytes] at htwice
    rw [← htwice]
    rfl

theorem Input.readItems_eq {s : Input} {items : List Item} (h : s.range.drop s.pos = bytesOfItems items ++ rest) :
    readItems native (items.map Item.format) s =
      (.ok (items.map fun i => i.value.1),
        { s with pos := s.pos + (bytesOfItems items).length, endian := orderAfterItems items s.endian }) := by
  induction items generalizing s with
  | nil => rfl
  | cons i items ih =>
    have hfirst : s.range.drop s.pos = i.bytes ++ (bytesOfItems items ++ rest) := by
      rw [h, bytesOfItems, List.flatMap_cons, List.append_assoc]
      rfl
    let s' : Input := { s with pos := s.pos + i.format.type.size, endian := i.format.orderAfter s.endian }
    have hrest : s'.range.drop s'.pos = bytesOfItems items ++ rest := by
      change s.range.drop (s.pos + i.format.type.size) = _
      rw [← List.drop_drop, hfirst, ← length_encode i.format.order i.value]
      exact List.drop_left
    apply (bind_ok (readItem_eq i hfirst)).trans
    apply (bind_ok (ih hrest)).trans
    rw [length_bytesOfItems_cons, ← Nat.add_assoc]
    rfl

end XviOs.ByteBuffer

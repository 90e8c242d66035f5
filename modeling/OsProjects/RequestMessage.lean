import OsProjects.CString
import OsProjects.Simplecached

/-! # The message of a request

`handle_with_cache` fills a `msgq_data` on its stack with `strcpy` and sends 1024 bytes from there
on; `main` of `simplecached` stores them from the beginning of its own `data` on, and the workers
read the fields of that.

* **Layout.** `segment_size` has four bytes, the lowest first; `path` and `fldes` have 256 bytes
  each and follow without gaps.
* **Behind the structures.** `mq_send` reads 508 bytes behind the one and `mq_receive` stores them
  behind the other.  They are arbitrary here, and what they are stored on is left out.
* **Copies.** `strcpy` does not stop at the end of a field but goes on into the next one.  Behind
  the end of the structure its result is not defined.
* `getInt_putInt`, `fields_fillData` — the fields as they are read back.
* `message_roundTrip_iff` — the requests that the cache receives as they were sent. -/

namespace OsProjects.Simplecached

/-! ### Objects in memory -/

/-- The bytes of an `int`. -/
def putInt (z : ℤ) : List Byte :=
  let n := (z % 2 ^ 32).toNat
  [UInt8.ofNat n, UInt8.ofNat (n / 2 ^ 8), UInt8.ofNat (n / 2 ^ 16), UInt8.ofNat (n / 2 ^ 24)]

/-- The `int` at the beginning of an object. -/
def getInt : List Byte → ℤ
  | a :: b :: c :: d :: _ =>
      cInt ((a.toNat + b.toNat * 2 ^ 8 + c.toNat * 2 ^ 16 + d.toNat * 2 ^ 24 : ℕ) : ℤ)
  | _ => 0

/-- `strcpy(object + offset, s)`, if the string and its NUL end inside of the object. -/
def strcpyTo (object : List Byte) (offset : ℕ) (s : List Byte) : Option (List Byte) :=
  if offset + s.length < object.length then
    some (object.take offset ++ (s ++ 0 :: object.drop (offset + s.length + 1)))
  else none

theorem getInt_putInt {z : ℤ} (h₀ : -2 ^ 31 ≤ z) (h₁ : z < 2 ^ 31) (rest : List Byte) :
    getInt (putInt z ++ rest) = z := by
  have hsum : ((z % 2 ^ 32).toNat % 2 ^ 8 + (z % 2 ^ 32).toNat / 2 ^ 8 % 2 ^ 8 * 2 ^ 8 +
      (z % 2 ^ 32).toNat / 2 ^ 16 % 2 ^ 8 * 2 ^ 16 +
        (z % 2 ^ 32).toNat / 2 ^ 24 % 2 ^ 8 * 2 ^ 24 : ℕ) = (z % 2 ^ 32).toNat := by
    have hlt : (z % 2 ^ 32).toNat < 2 ^ 32 := by omega
    omega
  simp only [putInt, getInt, List.cons_append, List.nil_append, UInt8.toNat_ofNat', hsum]
  rw [Int.toNat_of_nonneg (Int.emod_nonneg _ (by decide)), cInt]
  exact (Int.emod_bmod z (2 ^ 32)).trans (cInt_of_lt h₀ h₁)

section object
variable {object object' s : List Byte} {offset : ℕ}

theorem strcpyTo_length (h : strcpyTo object offset s = some object') :
    object'.length = object.length := by
  obtain ⟨hlt, h⟩ := Option.ite_none_right_eq_some.mp h
  obtain rfl := Option.some.inj h
  simp only [List.length_append, List.length_cons, List.length_take, List.length_drop]
  omega

theorem strcpyTo_drop (h : strcpyTo object offset s = some object') :
    object'.drop offset = s ++ 0 :: object.drop (offset + s.length + 1) := by
  obtain ⟨hlt, h⟩ := Option.ite_none_right_eq_some.mp h
  obtain rfl := Option.some.inj h
  rw [List.drop_left' (by rw [List.length_take]; omega)]

theorem strcpyTo_take (h : strcpyTo object offset s = some object') :
    object'.take offset = object.take offset := by
  obtain ⟨hlt, h⟩ := Option.ite_none_right_eq_some.mp h
  obtain rfl := Option.some.inj h
  rw [List.take_left' (by rw [List.length_take]; omega)]

end object

/-! ### The message -/

/-- `sizeof(((msgq_data *) 0)->path)`, and of `fldes`. -/
def fieldLen : ℕ := 256

/-- Where `path` begins. -/
def pathOffset : ℕ := 4

/-- Where `fldes` begins. -/
def fldesOffset : ℕ := 260

/-- `sizeof(msgq_data)`. -/
def sizeofMsgqData : ℕ := 516

/-- `data` of `handle_with_cache`, as it is sent; it holds anything at first. -/
def fillData (data path fldes : List Byte) (segmentSize : ℤ) : Option (List Byte) :=
  (strcpyTo data pathOffset path).bind fun data =>
    (strcpyTo data fldesOffset fldes).map fun data =>
      putInt segmentSize ++ data.drop pathOffset

/-- The fields of `data` in `simplecached`, from the bytes received on. -/
def readData (bytes : List Byte) : Msg :=
  ⟨getInt bytes, cstr (bytes.drop pathOffset), cstr (bytes.drop fldesOffset)⟩

section message
variable {data path fldes : List Byte} {segmentSize : ℤ}

/-- A path that fits into both fields together: its end is overwritten by the name. -/
def receivedPath (path fldes : List Byte) : List Byte :=
  if path.length < fieldLen then path else path.take fieldLen ++ fldes

/-- The structure: what is left of the path, and the name, each with a NUL behind it. -/
theorem fillData_eq (hdata : data.length = sizeofMsgqData) (hshort : fldes.length < fieldLen)
    (hlong : path.length < 2 * fieldLen) (segmentSize : ℤ) :
    ∃ x y, fieldLen ≤ (path ++ 0 :: x).length ∧ fillData data path fldes segmentSize =
      some (putInt segmentSize ++ ((path ++ 0 :: x).take fieldLen ++ (fldes ++ 0 :: y))) := by
  unfold fieldLen at hshort hlong
  unfold sizeofMsgqData at hdata
  obtain ⟨d₁, hd₁⟩ : ∃ d₁, strcpyTo data pathOffset path = some d₁ :=
    ⟨_, if_pos (by rw [hdata, pathOffset]; omega)⟩
  have hlen₁ := strcpyTo_length hd₁
  obtain ⟨d₂, hd₂⟩ : ∃ d₂, strcpyTo d₁ fldesOffset fldes = some d₂ :=
    ⟨_, if_pos (by rw [hlen₁, hdata, fldesOffset]; omega)⟩
  -- the name is written last, behind what is left of the path
  have hpath : (d₂.drop pathOffset).take fieldLen =
      (path ++ 0 :: data.drop (pathOffset + path.length + 1)).take fieldLen := by
    have htake := congrArg (List.drop pathOffset) (strcpyTo_take hd₂)
    rwa [List.drop_take, List.drop_take, strcpyTo_drop hd₁] at htake
  have hname : (d₂.drop pathOffset).drop fieldLen =
      fldes ++ 0 :: d₁.drop (fldesOffset + fldes.length + 1) := by
    rw [List.drop_drop]
    exact strcpyTo_drop hd₂
  refine ⟨data.drop (pathOffset + path.length + 1), d₁.drop (fldesOffset + fldes.length + 1), ?_, ?_⟩
  · simp only [List.length_append, List.length_cons, List.length_drop, hdata, pathOffset, fieldLen]
    omega
  · rw [← hpath, ← hname, List.take_append_drop, fillData, hd₁, Option.bind_some, hd₂]
    rfl

/-- The string in the field of the path, which goes on into that of the name if it is not ended. -/
theorem cstr_receivedPath (hpath : 0 ∉ path) (hfldes : 0 ∉ fldes) (x y : List Byte) :
    cstr ((path ++ 0 :: x).take fieldLen ++ (fldes ++ 0 :: y)) = receivedPath path fldes := by
  unfold receivedPath
  by_cases hfits : path.length < fieldLen
  · obtain ⟨k, hk⟩ := Nat.exists_eq_add_of_lt hfits
    have htake : (path ++ 0 :: x).take fieldLen = path ++ 0 :: x.take k := by
      rw [hk, List.take_append, List.take_of_length_le (by omega),
        show path.length + k + 1 - path.length = k + 1 by omega, List.take_succ_cons]
    rw [if_pos hfits, htake, List.append_assoc]
    exact cstr_append hpath (by simp)
  · rw [if_neg hfits, List.take_append_of_le_length (by omega),
      cstr_append_of_notMem fun hmem => hpath (List.mem_of_mem_take hmem)]
    exact congrArg _ (cstr_append hfldes (by simp))

/-- What the cache reads of a request, whatever is sent behind the structure. -/
theorem fields_fillData (hdata : data.length = sizeofMsgqData) (hpath : 0 ∉ path)
    (hfldes : 0 ∉ fldes) (hshort : fldes.length < fieldLen) (h₀ : -2 ^ 31 ≤ segmentSize)
    (h₁ : segmentSize < 2 ^ 31) (hlong : path.length < 2 * fieldLen) :
    ∃ sent, fillData data path fldes segmentSize = some sent ∧ ∀ behind,
      readData (sent ++ behind) = ⟨segmentSize, receivedPath path fldes, fldes⟩ := by
  obtain ⟨x, y, hlen, hsent⟩ := fillData_eq hdata hshort hlong segmentSize
  refine ⟨_, hsent, fun behind => ?_⟩
  have htake : ((path ++ 0 :: x).take fieldLen).length = fieldLen := List.length_take_of_le hlen
  have hbytes : putInt segmentSize ++ ((path ++ 0 :: x).take fieldLen ++ (fldes ++ 0 :: y)) ++
      behind = putInt segmentSize ++ ((path ++ 0 :: x).take fieldLen ++
        (fldes ++ 0 :: (y ++ behind))) := by
    simp only [List.append_assoc, List.cons_append]
  rw [hbytes, readData, getInt_putInt h₀ h₁, List.drop_left' (i := pathOffset) rfl,
    cstr_receivedPath hpath hfldes, ← List.append_assoc,
    List.drop_left' (i := fldesOffset) (by rw [List.length_append, htake]; rfl)]
  exact congrArg _ (cstr_append hfldes (by simp))

theorem fillData_eq_none (hdata : data.length = sizeofMsgqData)
    (hlong : 2 * fieldLen ≤ path.length) (fldes : List Byte) (segmentSize : ℤ) :
    fillData data path fldes segmentSize = none := by
  unfold fieldLen at hlong
  unfold sizeofMsgqData at hdata
  rw [fillData, strcpyTo, if_neg (by rw [hdata, pathOffset]; omega), Option.bind_none]

/-- **Round trip of a request.** For every path and every name of a segment without a NUL, the name
shorter than its field: the cache receives the request as it was sent exactly if the path is
shorter than its field, or goes on behind it with the name of the segment itself. A path that is
longer than both fields together is written out of the structure. What the 508 bytes behind the
message do where `mq_receive` stores them is left out. -/
theorem message_roundTrip_iff (data path fldes : List Byte) (segmentSize : ℤ)
    (hdata : data.length = sizeofMsgqData) (hpath : 0 ∉ path) (hfldes : 0 ∉ fldes)
    (hshort : fldes.length < fieldLen) (h₀ : -2 ^ 31 ≤ segmentSize) (h₁ : segmentSize < 2 ^ 31) :
    ((∃ sent, fillData data path fldes segmentSize = some sent ∧
        ∀ behind, readData (sent ++ behind) = ⟨segmentSize, path, fldes⟩) ↔
      path.length < fieldLen ∨ path.drop fieldLen = fldes) ∧
    (fillData data path fldes segmentSize = none ↔ 2 * fieldLen ≤ path.length) := by
  by_cases hlong : path.length < 2 * fieldLen
  · obtain ⟨sent, hsent, hread⟩ := fields_fillData hdata hpath hfldes hshort h₀ h₁ hlong
    refine ⟨?_, iff_of_false (by rw [hsent]; simp) (by omega)⟩
    have hsame : (∃ sent, fillData data path fldes segmentSize = some sent ∧
        ∀ behind, readData (sent ++ behind) = ⟨segmentSize, path, fldes⟩) ↔
          receivedPath path fldes = path := by
      constructor
      · rintro ⟨sent', hsent', hread'⟩
        obtain rfl := Option.some.inj (hsent.symm.trans hsent')
        exact (Msg.mk.inj ((hread []).symm.trans (hread' []))).2.1
      · intro heq
        rw [heq] at hread
        exact ⟨sent, hsent, hread⟩
    rw [hsame, receivedPath]
    by_cases hfits : path.length < fieldLen
    · rw [if_pos hfits]
      exact iff_of_true rfl (.inl hfits)
    · rw [if_neg hfits, or_iff_right hfits]
      constructor
      · intro heq
        exact List.append_cancel_left ((List.take_append_drop fieldLen path).trans heq.symm)
      · intro heq
        rw [← heq, List.take_append_drop]
  · have hnone := fillData_eq_none hdata (not_lt.mp hlong) fldes segmentSize
    have hdrop : path.drop fieldLen ≠ fldes := by
      rintro rfl
      rw [List.length_drop] at hshort
      omega
    refine ⟨iff_of_false ?_ ?_, iff_of_true hnone (not_lt.mp hlong)⟩
    · rintro ⟨sent, hsent, -⟩
      rw [hnone] at hsent
      cases hsent
    · rintro (hfits | heq)
      · unfold fieldLen at hfits hlong
        omega
      · exact hdrop heq

end message

theorem message_roundTrip_iff_a : ∃ sent,
    fillData (List.replicate 516 7) (str "/a") (str "/sharedmpath0") 1024 = some sent ∧
      ∀ behind, readData (sent ++ behind) = ⟨1024, str "/a", str "/sharedmpath0"⟩ :=
  (message_roundTrip_iff (List.replicate 516 7) (str "/a") (str "/sharedmpath0") 1024
    List.length_replicate (by decide) (by decide) (by decide) (by decide) (by decide)).1.mpr
      (.inl (by decide))

end OsProjects.Simplecached

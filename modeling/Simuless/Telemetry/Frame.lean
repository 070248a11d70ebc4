import Simuless.Foundation.Block

/-! The binary frame of the telemetry protocol.

A frame is a packed 16-byte header, 1 to 256 payload bytes and an XOR checksum
over both. The header is a little-endian record without padding, so its fields
stand at fixed offsets.
-/

set_option autoImplicit false

namespace Simuless.Telemetry

open Foundation

def frameMagic : UInt8 := 0xAA

def frameMaxPayload : Nat := 256

structure FrameHeader where
  magic : UInt8
  type : UInt8
  timestampUs : UInt64
  sequence : UInt32
  payloadLen : UInt16
  deriving DecidableEq, Repr

/-- `sizeof(frame_header_t)` under `#pragma pack(1)`. -/
def sizeofHeader : Nat := 16

/-- `sizeof(frame_t)`: header, largest payload, checksum. -/
def sizeofFrame : Nat := sizeofHeader + frameMaxPayload + 1

/-- The value of the unsigned field of `width` octets at an offset. -/
def field (bytes : Bytes) (offset width : Nat) : Nat :=
  valueOf ((bytes.drop offset).take width)

/-- The header that starts at the first octet, as a cast pointer reads it. -/
def FrameHeader.ofBytes (bytes : Bytes) : FrameHeader where
  magic := .ofNat (field bytes 0 1)
  type := .ofNat (field bytes 1 1)
  timestampUs := .ofNat (field bytes 2 8)
  sequence := .ofNat (field bytes 10 4)
  payloadLen := .ofNat (field bytes 14 2)

def FrameHeader.toBytes (header : FrameHeader) : Bytes :=
  littleEndian 1 header.magic.toNat ++ littleEndian 1 header.type.toNat ++
    littleEndian 8 header.timestampUs.toNat ++ littleEndian 4 header.sequence.toNat ++
    littleEndian 2 header.payloadLen.toNat

@[simp] theorem FrameHeader.length_toBytes (header : FrameHeader) :
    header.toBytes.length = sizeofHeader := by
  simp [toBytes, sizeofHeader]

theorem field_append (front later : Bytes) (offset width : Nat)
    (inside : offset + width ≤ front.length) :
    field (front ++ later) offset width = field front offset width := by
  unfold field
  rw [List.drop_append_of_le_length (by omega), List.take_append_of_le_length]
  rw [List.length_drop]
  omega

/-- A field standing behind `front` reads back the numeral stored there. -/
theorem field_littleEndian (front later : Bytes) (width value : Nat) (fits : value < 256 ^ width) :
    field (front ++ (littleEndian width value ++ later)) front.length width = value := by
  unfold field
  rw [List.drop_left, List.take_left' (length_littleEndian width value)]
  exact valueOf_littleEndian width value fits

theorem littleEndian_field (bytes : Bytes) (offset width : Nat) (inside : offset + width ≤ bytes.length) :
    littleEndian width (field bytes offset width) = (bytes.drop offset).take width := by
  have length : ((bytes.drop offset).take width).length = width := by
    rw [List.length_take, List.length_drop]
    omega
  have numeral := littleEndian_valueOf ((bytes.drop offset).take width)
  rwa [length] at numeral

/-- Only the first 16 octets matter to the header. -/
theorem FrameHeader.ofBytes_append (front later : Bytes) (complete : sizeofHeader ≤ front.length) :
    ofBytes (front ++ later) = ofBytes front := by
  unfold sizeofHeader at complete
  unfold ofBytes
  rw [field_append _ _ 0 1 (by omega), field_append _ _ 1 1 (by omega),
    field_append _ _ 2 8 (by omega), field_append _ _ 10 4 (by omega),
    field_append _ _ 14 2 (by omega)]

theorem FrameHeader.ofBytes_take (bytes : Bytes) (count : Nat) (kept : sizeofHeader ≤ count)
    (complete : sizeofHeader ≤ bytes.length) : ofBytes (bytes.take count) = ofBytes bytes := by
  conv => rhs; rw [← List.take_append_drop count bytes]
  refine (ofBytes_append _ _ ?_).symm
  rw [List.length_take]
  omega

theorem FrameHeader.ofBytes_toBytes (header : FrameHeader) (later : Bytes) :
    ofBytes (header.toBytes ++ later) = header := by
  have magic := header.magic.toNat_lt
  have type := header.type.toNat_lt
  have timestamp := header.timestampUs.toNat_lt
  have sequence := header.sequence.toNat_lt
  have payloadLen := header.payloadLen.toNat_lt
  let m := littleEndian 1 header.magic.toNat
  let t := littleEndian 1 header.type.toNat
  let u := littleEndian 8 header.timestampUs.toNat
  let s := littleEndian 4 header.sequence.toNat
  let l := littleEndian 2 header.payloadLen.toNat
  -- each field stands right behind the octets of the fields before it
  have magicField : field (header.toBytes ++ later) 0 1 = header.magic.toNat := by
    have read := field_littleEndian [] (t ++ u ++ s ++ l ++ later) 1 _ magic
    simpa [toBytes, t, u, s, l] using read
  have typeField : field (header.toBytes ++ later) 1 1 = header.type.toNat := by
    have read := field_littleEndian m (u ++ s ++ l ++ later) 1 _ type
    simpa [toBytes, m, u, s, l] using read
  have timestampField : field (header.toBytes ++ later) 2 8 = header.timestampUs.toNat := by
    have read := field_littleEndian (m ++ t) (s ++ l ++ later) 8 _ timestamp
    simpa [toBytes, m, t, s, l] using read
  have sequenceField : field (header.toBytes ++ later) 10 4 = header.sequence.toNat := by
    have read := field_littleEndian (m ++ t ++ u) (l ++ later) 4 _ sequence
    simpa [toBytes, m, t, u, l] using read
  have payloadField : field (header.toBytes ++ later) 14 2 = header.payloadLen.toNat := by
    have read := field_littleEndian (m ++ t ++ u ++ s) later 2 _ payloadLen
    simpa [toBytes, m, t, u, s] using read
  unfold ofBytes
  rw [magicField, typeField, timestampField, sequenceField, payloadField]
  simp only [UInt8.ofNat_toNat, UInt16.ofNat_toNat, UInt32.ofNat_toNat, UInt64.ofNat_toNat]

/-- Reading the header loses nothing of the octets it stands for. -/
theorem FrameHeader.toBytes_ofBytes (bytes : Bytes) (complete : sizeofHeader ≤ bytes.length) :
    (ofBytes bytes).toBytes = bytes.take sizeofHeader := by
  unfold sizeofHeader at complete
  have value (offset width : Nat) (inside : offset + width ≤ bytes.length) :
      field bytes offset width < 256 ^ width := by
    have bound := valueOf_lt ((bytes.drop offset).take width)
    rwa [List.length_take, List.length_drop, Nat.min_eq_left (by omega)] at bound
  -- the types are as wide as the fields, so no numeral is cut off
  have m : (UInt8.ofNat (field bytes 0 1)).toNat = field bytes 0 1 :=
    Nat.mod_eq_of_lt (value 0 1 (by omega))
  have t : (UInt8.ofNat (field bytes 1 1)).toNat = field bytes 1 1 :=
    Nat.mod_eq_of_lt (value 1 1 (by omega))
  have u : (UInt64.ofNat (field bytes 2 8)).toNat = field bytes 2 8 :=
    Nat.mod_eq_of_lt (value 2 8 (by omega))
  have s : (UInt32.ofNat (field bytes 10 4)).toNat = field bytes 10 4 :=
    Nat.mod_eq_of_lt (value 10 4 (by omega))
  have l : (UInt16.ofNat (field bytes 14 2)).toNat = field bytes 14 2 :=
    Nat.mod_eq_of_lt (value 14 2 (by omega))
  simp only [toBytes, ofBytes, m, t, u, s, l]
  -- five adjacent slices make up the header
  rw [littleEndian_field _ _ _ (by omega), littleEndian_field _ _ _ (by omega),
    littleEndian_field _ _ _ (by omega), littleEndian_field _ _ _ (by omega),
    littleEndian_field _ _ _ (by omega)]
  simp only [List.drop_zero, ← List.take_add, sizeofHeader]

/-! Checksums and whole frames. -/

def xorOf (octets : Bytes) : UInt8 := octets.foldl (· ^^^ ·) 0

/-- The checksum loop over `data[0..len)`. -/
def xorChecksum {size : Nat} (data : Block size) (len : UInt16) : Option UInt8 := do
  let octets ← data.load 0 len.toNat
  return xorOf octets

theorem xorChecksum_fits {size : Nat} (data : Block size) (len : UInt16) (fits : len.toNat ≤ size) :
    xorChecksum data len = some (xorOf (data.bytes.take len.toNat)) := by
  simp only [xorChecksum, data.load_fits 0 len.toNat (by omega), List.drop_zero]
  rfl

/-- The octets of a frame on the wire. -/
def frameBytes (header : FrameHeader) (payload : Bytes) : Bytes :=
  header.toBytes ++ payload ++ [xorOf (header.toBytes ++ payload)]

@[simp] theorem length_frameBytes (header : FrameHeader) (payload : Bytes) :
    (frameBytes header payload).length = sizeofHeader + payload.length + 1 := by
  simp [frameBytes, Nat.add_assoc]

theorem frameBytes_payload (header : FrameHeader) (payload : Bytes) :
    ((frameBytes header payload).drop sizeofHeader).take payload.length = payload := by
  simp only [frameBytes, List.append_assoc]
  rw [List.drop_left' header.length_toBytes, List.take_left]

/-- What a frame says: everything but the magic octet and the checksum. -/
structure Content where
  type : UInt8
  sequence : UInt32
  timestampUs : UInt64
  payloadLen : UInt16
  payload : Bytes
  deriving DecidableEq, Repr

def Content.header (content : Content) : FrameHeader where
  magic := frameMagic
  type := content.type
  timestampUs := content.timestampUs
  sequence := content.sequence
  payloadLen := content.payloadLen

/-- The struct `frame_t` as the object a frame is copied into. -/
abbrev Frame := Block sizeofFrame

def Frame.header (frame : Frame) : FrameHeader := .ofBytes frame.bytes

def Frame.payload (frame : Frame) : Bytes := (frame.bytes.drop sizeofHeader).take frameMaxPayload

def Frame.checksum (frame : Frame) : UInt8 := frame.bytes.getD (sizeofHeader + frameMaxPayload) 0

/-- What a receiver reads from the struct: the header fields and
`payload[0..payload_len)`. -/
def Frame.content (frame : Frame) : Content where
  type := frame.header.type
  sequence := frame.header.sequence
  timestampUs := frame.header.timestampUs
  payloadLen := frame.header.payloadLen
  payload := frame.payload.take frame.header.payloadLen.toNat

/-- A message that fits one frame. -/
structure Message where
  type : UInt8
  sequence : UInt32
  timestampUs : UInt64
  payload : Bytes
  nonempty : 0 < payload.length
  bounded : payload.length ≤ frameMaxPayload

def Message.content (message : Message) : Content where
  type := message.type
  sequence := message.sequence
  timestampUs := message.timestampUs
  payloadLen := .ofNat message.payload.length
  payload := message.payload

theorem Message.payloadLen_toNat (message : Message) :
    message.content.payloadLen.toNat = message.payload.length := by
  have bounded := message.bounded
  unfold frameMaxPayload at bounded
  simp only [content, UInt16.toNat_ofNat']
  omega

def Message.bytes (message : Message) : Bytes := frameBytes message.content.header message.payload

theorem Message.length_bytes (message : Message) :
    message.bytes.length = sizeofHeader + message.payload.length + 1 :=
  length_frameBytes _ _

end Simuless.Telemetry

import Oxen.Lib.Runs
import Oxen.Model.MerkleNodeFiles

/-! The files of a node read back as they were written, and the beginning of a
`node` file as a beginning of the children. -/

namespace Oxen

namespace NodeFiles

open Binary Runs

/-! ## Writing -/

/-- A file that was only appended to. -/
def File.whole (bytes : Content) : File := { bytes, position := bytes.length }

theorem orElse_eq_ok {α : Type} {error : MerkleDbError} {o : Option α} {x : α} :
    orElse error o = .ok x ↔ o = some x := by
  cases o <;> simp [orElse]

theorem File.writeAll_whole {bytes buf : Content} {f : File}
    (h : (File.whole bytes).writeAll buf = .ok f) :
    f = File.whole (bytes ++ buf) ∧ (bytes ++ buf).length ≤ maxFileSize := by
  rw [File.writeAll, File.whole] at h
  split at h
  · cases h
  · next hfits =>
    cases h
    rw [not_lt] at hfits
    exact ⟨by simp [File.whole], by rwa [List.length_append]⟩

theorem toLeBytes_eq (hash : MerkleHash) : hash.toLeBytes = toLe 16 hash.toNat := by
  rw [toLe_eq_map_range, MerkleHash.toLeBytes]

variable {Node : Type} (format : NodeFormat Node)

def encoded (node : Node) : Content :=
  (format.toMsgpackBytes node).getD []

theorem encoded_eq {node : Node} {buf : Content} (h : format.toMsgpackBytes node = some buf) :
    encoded format node = buf := by
  rw [encoded, h, Option.getD_some]

def headerBytes (node : Node) (parentId : Option MerkleHash) : Content :=
  toLe 1 (format.nodeType node).toU8.toNat ++ (toLe 16 (parentId.getD 0).toNat ++
    (toLe 4 (UInt32.ofNat (encoded format node).length).toNat ++ encoded format node))

/-- The places of children that are stored one after the other. -/
def offsetsFrom : ℕ → List Node → List ChildOffset
  | _, [] => []
  | start, child :: children =>
      { hash := format.hash child
        dataType := (format.nodeType child).toU8
        dataOffset := UInt64.ofNat start
        dataLen := UInt64.ofNat (encoded format child).length } ::
        offsetsFrom (start + (encoded format child).length) children

def offsetBytes (child : ChildOffset) : Content :=
  toLe 1 child.dataType.toNat ++ (toLe 16 child.hash.toNat ++
    (toLe 8 child.dataOffset.toNat ++ toLe 8 child.dataLen.toNat))

def blobs (children : List Node) : Content :=
  children.flatMap (encoded format)

theorem offsetsFrom_append (start : ℕ) (xs ys : List Node) :
    offsetsFrom format start (xs ++ ys) =
      offsetsFrom format start xs ++ offsetsFrom format (start + (blobs format xs).length) ys := by
  induction xs generalizing start with
  | nil => rfl
  | cons x xs ih =>
      rw [List.cons_append, offsetsFrom, offsetsFrom, ih, List.cons_append]
      simp [blobs, Nat.add_assoc]

theorem length_offsetsFrom (start : ℕ) (children : List Node) :
    (offsetsFrom format start children).length = children.length := by
  induction children generalizing start with
  | nil => rfl
  | cons child children ih => rw [offsetsFrom, List.length_cons, ih, List.length_cons]

theorem take_offsetsFrom (start n : ℕ) (children : List Node) :
    (offsetsFrom format start children).take n = offsetsFrom format start (children.take n) := by
  induction children generalizing start n with
  | nil => simp [offsetsFrom]
  | cons child children ih =>
      cases n with
      | zero => rfl
      | succ n => rw [offsetsFrom, List.take_succ_cons, List.take_succ_cons, offsetsFrom, ih]

/-- The database of a node that is being written, after some of its children. -/
structure Writing (node : Node) (parentId : Option MerkleHash) (children : List Node)
    (db : MerkleNodeDB) : Prop where
  writable : db.readOnly = false
  nodeFile : db.nodeFile = some (.whole (headerBytes format node parentId ++
    (offsetsFrom format 0 children).flatMap offsetBytes))
  childrenFile : db.childrenFile = some (.whole (blobs format children))
  dataOffset : db.dataOffset = UInt64.ofNat (blobs format children).length
  encodes : ∀ item ∈ node :: children, (format.toMsgpackBytes item).isSome
  fits : (blobs format children).length ≤ maxFileSize

variable {format} {node : Node} {parentId : Option MerkleHash} {children : List Node}
  {db db' : MerkleNodeDB}

theorem writing_of_openReadWrite (h : MerkleNodeDB.openReadWrite format node parentId = .ok db) :
    Writing format node parentId [] db := by
  rw [MerkleNodeDB.openReadWrite, MerkleNodeDB.writeNode, if_neg (by decide), if_neg (by decide)] at h
  simp only [bind_eq_ok, orElse_eq_ok, MerkleNodeDB.openForWriting, Option.some.injEq,
    exists_eq_left'] at h
  rcases h with ⟨f1, h1, f2, h2, buf, hbuf, f3, h3, f4, h4, hdb⟩
  cases hdb
  have hparent : (parentId.map MerkleHash.toLeBytes).getD (.replicate 16 0) =
      toLe 16 (parentId.getD 0).toNat := by
    cases parentId with
    | none => rfl
    | some id => exact toLeBytes_eq id
  rw [hparent] at h2
  rcases @File.writeAll_whole [] _ _ h1 with ⟨rfl, -⟩
  rcases File.writeAll_whole h2 with ⟨rfl, -⟩
  rcases File.writeAll_whole h3 with ⟨rfl, -⟩
  rcases File.writeAll_whole h4 with ⟨rfl, -⟩
  exact {
    writable := rfl
    nodeFile := by simp [headerBytes, encoded_eq format hbuf, offsetsFrom, List.append_assoc]
    childrenFile := rfl
    dataOffset := rfl
    encodes := by simp [hbuf]
    fits := Nat.zero_le _ }

theorem Writing.addChild {item : Node} (hw : Writing format node parentId children db)
    (h : MerkleNodeDB.addChild format db item = .ok db') :
    Writing format node parentId (children ++ [item]) db' := by
  simp only [MerkleNodeDB.addChild, hw.writable, Bool.false_eq_true, if_false, bind_eq_ok,
    orElse_eq_ok, hw.nodeFile, hw.childrenFile, Option.some.injEq, exists_eq_left'] at h
  rcases h with ⟨buf, hbuf, f1, h1, f2, h2, f3, h3, f4, h4, f5, h5, hdb⟩
  cases hdb
  rw [toLeBytes_eq] at h2
  rcases File.writeAll_whole h1 with ⟨rfl, -⟩
  rcases File.writeAll_whole h2 with ⟨rfl, -⟩
  rcases File.writeAll_whole h3 with ⟨rfl, -⟩
  rcases File.writeAll_whole h4 with ⟨rfl, -⟩
  rcases File.writeAll_whole h5 with ⟨rfl, hfits⟩
  have hblobs : blobs format (children ++ [item]) = blobs format children ++ buf := by
    simp [blobs, encoded_eq format hbuf]
  exact {
    writable := rfl
    nodeFile := by
      simp [offsetsFrom_append, offsetsFrom, offsetBytes, encoded_eq format hbuf, hw.dataOffset,
        List.append_assoc]
    childrenFile := by rw [hblobs]
    dataOffset := by rw [hblobs, hw.dataOffset, List.length_append, UInt64.ofNat_add]
    encodes := by
      intro x hx
      rw [← List.cons_append] at hx
      rcases List.mem_append.mp hx with hx | hx
      · exact hw.encodes x hx
      · rw [List.mem_singleton.mp hx, hbuf, Option.isSome_some]
    fits := by rw [hblobs]; exact hfits }

theorem Writing.addChildren {items : List Node} (hw : Writing format node parentId children db)
    (h : items.foldlM (MerkleNodeDB.addChild format) db = .ok db') :
    Writing format node parentId (children ++ items) db' := by
  induction items generalizing children db with
  | nil =>
      cases h
      rwa [List.append_nil]
  | cons item items ih =>
      rw [List.foldlM_cons, bind_eq_ok] at h
      rcases h with ⟨middle, hstep, hrest⟩
      simpa using ih (hw.addChild hstep) hrest

/-- What is on disk after a node was written with its children. -/
theorem writeFiles_eq {files : Content × Content}
    (h : writeFiles format node parentId children = .ok files) :
    files = (headerBytes format node parentId ++
        (offsetsFrom format 0 children).flatMap offsetBytes, blobs format children) ∧
      (∀ item ∈ node :: children, (format.toMsgpackBytes item).isSome) ∧
      (blobs format children).length ≤ maxFileSize := by
  simp only [writeFiles, bind_eq_ok] at h
  rcases h with ⟨opened, hopen, db, hchildren, hclose⟩
  have hw : Writing format node parentId children db :=
    (writing_of_openReadWrite hopen).addChildren hchildren
  simp only [MerkleNodeDB.close, bind_eq_ok, orElse_eq_ok, hw.nodeFile, hw.childrenFile,
    Option.some.injEq, exists_eq_left'] at hclose
  cases hclose
  exact ⟨rfl, hw.encodes, hw.fits⟩

/-! ## Reading -/

theorem reads_readU8 (x : UInt8) : Reads readU8 (toLe 1 x.toNat) x := by
  have h := (@reads_readLe 1 x.toNat (by have := x.toNat_lt; omega)).map UInt8.ofNat
  rwa [UInt8.ofNat_toNat] at h

theorem reads_readU32 (x : UInt32) : Reads readU32 (toLe 4 x.toNat) x := by
  have h := (@reads_readLe 4 x.toNat (by have := x.toNat_lt; omega)).map UInt32.ofNat
  rwa [UInt32.ofNat_toNat] at h

theorem reads_readU64 (x : UInt64) : Reads readU64 (toLe 8 x.toNat) x := by
  have h := (@reads_readLe 8 x.toNat (by have := x.toNat_lt; omega)).map UInt64.ofNat
  rwa [UInt64.ofNat_toNat] at h

theorem reads_readU128 (x : MerkleHash) : Reads readU128 (toLe 16 x.toNat) x := by
  have h := (@reads_readLe 16 x.toNat (by have := x.isLt; omega)).map
    (BitVec.ofNat 128)
  rwa [BitVec.ofNat_toNat, BitVec.setWidth_eq] at h

theorem reads_childOffset (child : ChildOffset) :
    Reads (readU8 >>= readChildOffset) (offsetBytes child) child := by
  apply (reads_readU8 child.dataType).bind
  rw [← List.append_nil (toLe 8 child.dataLen.toNat)]
  exact (reads_readU128 child.hash).bind ((reads_readU64 child.dataOffset).bind
    ((reads_readU64 child.dataLen).bind (.pure child)))

theorem reads_header (hlen : (encoded format node).length < 2 ^ 32) :
    Reads readHeader (headerBytes format node parentId)
      ((format.nodeType node).toU8, parentId.getD 0, encoded format node) := by
  have hn : (UInt32.ofNat (encoded format node).length).toNat = (encoded format node).length := by
    rw [UInt32.toNat_ofNat', Nat.mod_eq_of_lt hlen]
  have hdata := (reads_readExact hn.symm).map fun data =>
    ((format.nodeType node).toU8, parentId.getD 0, data)
  exact (reads_readU8 _).bind ((reads_readU128 _).bind ((reads_readU32 _).bind hdata))

theorem readU8_endsOnly : EndsOnly readU8 where
  atEnd := rfl
  before := by
    intro input hne
    cases input with
    | nil => exact absurd rfl hne
    | cons b rest => rfl

def lookupOf (format : NodeFormat Node) (node : Node) (parentId : Option MerkleHash)
    (offsets : List ChildOffset) : MerkleNodeLookup where
  dataType := (format.nodeType node).toU8
  parentId := parentId.getD 0
  data := encoded format node
  numChildren := offsets.length
  offsets := offsets

theorem load_header (hlen : (encoded format node).length < 2 ^ 32) (records : Content) :
    MerkleNodeLookup.load (headerBytes format node parentId ++ records) =
      orElse .io ((readWhile readU8 readChildOffset records.length records).map
        (lookupOf format node parentId)) := by
  rw [MerkleNodeLookup.load, (reads_header hlen).all, Option.bind_eq_bind, Option.bind_some]
  dsimp only
  cases readWhile readU8 readChildOffset records.length records <;> rfl

theorem load_whole (hlen : (encoded format node).length < 2 ^ 32) (offsets : List ChildOffset) :
    MerkleNodeLookup.load (headerBytes format node parentId ++ offsets.flatMap offsetBytes) =
      .ok (lookupOf format node parentId offsets) := by
  rw [load_header hlen,
    readWhile_all readU8_endsOnly (fun y (_ : y ∈ offsets) => reads_childOffset y) le_rfl]
  rfl

/-- A `node` file that is cut off loads with its first children, or not at all. -/
theorem load_cut (hlen : (encoded format node).length < 2 ^ 32) {offsets : List ChildOffset}
    {cut : Content}
    (hcut : cut <+: headerBytes format node parentId ++ offsets.flatMap offsetBytes) :
    MerkleNodeLookup.load cut = .error .io ∨
      ∃ n ≤ offsets.length,
        MerkleNodeLookup.load cut = .ok (lookupOf format node parentId (offsets.take n)) := by
  rcases prefix_append_cases hcut with ⟨hheader, hne⟩ | ⟨behind, hbehind, rfl⟩
  · apply Or.inl
    rw [MerkleNodeLookup.load, (reads_header hlen).short cut hheader hne]
    rfl
  · rw [load_header hlen]
    rcases readWhile_prefix readU8_endsOnly (fun y (_ : y ∈ offsets) => reads_childOffset y) hbehind
      le_rfl with hnone | ⟨n, hn, hsome⟩
    · exact .inl (by rw [hnone]; rfl)
    · exact .inr ⟨n, hn, by rw [hsome]; rfl⟩

/-- Deserializing gives back what was serialized. -/
def NodeFormat.RoundTrips (format : NodeFormat Node) : Prop :=
  ∀ node buf, format.toMsgpackBytes node = some buf →
    format.deserialize (format.nodeType node) buf = some node

theorem nodeTypeOf_toU8 (dtype : MerkleTreeNodeType) : nodeTypeOf dtype.toU8 = .ok dtype := by
  cases dtype <;> rfl

theorem toNode_encoded (hformat : format.RoundTrips) (h : (format.toMsgpackBytes node).isSome) :
    MerkleNodeDB.toNode format (format.nodeType node) (encoded format node) = .ok node := by
  rcases Option.isSome_iff_exists.mp h with ⟨buf, hbuf⟩
  rw [MerkleNodeDB.toNode, encoded_eq format hbuf, hformat node buf hbuf]
  rfl

/-- A child as `map` returns it. -/
def mapped (format : NodeFormat Node) (parentId : MerkleHash) (child : Node) :
    MerkleHash × LoadedChild Node :=
  (format.hash child, { parentId := some parentId, hash := format.hash child, node := child })

theorem readChild_eq (hformat : format.RoundTrips) (h : (format.toMsgpackBytes node).isSome)
    (id : MerkleHash) {before behind : Content}
    (hfits : (before ++ (encoded format node ++ behind)).length ≤ maxFileSize) :
    MerkleNodeDB.readChild format id (before ++ (encoded format node ++ behind))
        { hash := format.hash node
          dataType := (format.nodeType node).toU8
          dataOffset := UInt64.ofNat before.length
          dataLen := UInt64.ofNat (encoded format node).length } =
      .ok (mapped format id node) := by
  rw [List.length_append, List.length_append, maxFileSize] at hfits
  have hoffset : (UInt64.ofNat before.length).toNat = before.length := by
    rw [UInt64.toNat_ofNat', Nat.mod_eq_of_lt (by omega)]
  have hlen : (UInt64.ofNat (encoded format node).length).toNat = (encoded format node).length := by
    rw [UInt64.toNat_ofNat', Nat.mod_eq_of_lt (by omega)]
  rw [MerkleNodeDB.readChild, hoffset, hlen, List.drop_left, (reads_readExact rfl).all]
  simp only [orElse, ok_bind, nodeTypeOf_toU8, toNode_encoded hformat h]
  rfl

theorem mapM_readChild (hformat : format.RoundTrips) (id : MerkleHash) {before behind : Content}
    (h : ∀ child ∈ children, (format.toMsgpackBytes child).isSome)
    (hfits : (before ++ (blobs format children ++ behind)).length ≤ maxFileSize) :
    (offsetsFrom format before.length children).mapM
        (MerkleNodeDB.readChild format id (before ++ (blobs format children ++ behind))) =
      .ok (children.map (mapped format id)) := by
  induction children generalizing before with
  | nil => rfl
  | cons child children ih =>
      have hblobs : blobs format (child :: children) ++ behind =
          encoded format child ++ (blobs format children ++ behind) := by
        simp [blobs]
      rw [hblobs] at hfits ⊢
      have hrest := @ih (before ++ encoded format child)
        (fun c hc => h c (List.mem_cons_of_mem child hc)) (by rwa [List.append_assoc])
      rw [List.append_assoc, List.length_append] at hrest
      rw [offsetsFrom, List.mapM_cons, readChild_eq hformat (h child (by simp)) id hfits, hrest]
      rfl

/-- The database opened from two files has the node and the children. -/
def ReadsBack (format : NodeFormat Node) (node : Node) (parentId : Option MerkleHash)
    (children : List Node) (nodeBytes childrenBytes : Content) : Prop :=
  ∃ db, MerkleNodeDB.openReadOnly nodeBytes childrenBytes = .ok db ∧
    db.dtype = format.nodeType node ∧ db.parentId = parentId ∧
    some db.nodeData = format.toMsgpackBytes node ∧ db.node format = .ok node ∧
    db.countChildren = children.length ∧
    ∃ after, db.map format = .ok (children.map (mapped format (format.hash node)), after)

theorem readsBack_of_load (hformat : format.RoundTrips) {nodeBytes behind : Content}
    (h : ∀ item ∈ node :: children, (format.toMsgpackBytes item).isSome)
    (hfits : (blobs format children ++ behind).length ≤ maxFileSize)
    (hload : MerkleNodeLookup.load nodeBytes =
      .ok (lookupOf format node parentId (offsetsFrom format 0 children))) :
    ReadsBack format node (some (parentId.getD 0)) children nodeBytes
      (blobs format children ++ behind) := by
  have hnode := h node (by simp)
  have hchildren := @mapM_readChild Node format children hformat (format.hash node) [] behind
    (fun c hc => h c (List.mem_cons_of_mem node hc)) hfits
  have hopen : MerkleNodeDB.openReadOnly nodeBytes (blobs format children ++ behind) = .ok
      { readOnly := true
        dtype := format.nodeType node
        parentId := some (parentId.getD 0)
        nodeFile := some { bytes := nodeBytes, position := nodeBytes.length }
        childrenFile := some { bytes := blobs format children ++ behind }
        lookup := some (lookupOf format node parentId (offsetsFrom format 0 children)) } := by
    rw [MerkleNodeDB.openReadOnly, hload, ok_bind, lookupOf, nodeTypeOf_toU8]
    rfl
  refine ⟨_, hopen, rfl, rfl, ?_, ?_, length_offsetsFrom format 0 children, ?_⟩
  · rcases Option.isSome_iff_exists.mp hnode with ⟨buf, hbuf⟩
    rw [hbuf, ← encoded_eq format hbuf]
    rfl
  · exact toNode_encoded hformat hnode
  · simp only [MerkleNodeDB.map, orElse, ok_bind, lookupOf, nodeTypeOf_toU8,
      MerkleNodeDB.deserializeId, toNode_encoded hformat hnode, Except.map, File.readToEnd,
      List.drop_zero]
    rw [List.nil_append, List.length_nil] at hchildren
    rw [hchildren]
    exact ⟨_, rfl⟩

/-- The files decode to what was written, with this parent id; a beginning of the
`node` file decodes to the first children or does not load. -/
def FilesDecode (format : NodeFormat Node) (node : Node) (parentId : Option MerkleHash)
    (children : List Node) (files : Content × Content) : Prop :=
  ReadsBack format node parentId children files.1 files.2 ∧
    ∀ cut, cut <+: files.1 → cut ≠ files.1 →
      (∃ e, MerkleNodeDB.openReadOnly cut files.2 = .error e) ∨
        ∃ n, ReadsBack format node parentId (children.take n) cut files.2

/-- A missing parent id reads back as 0; everything else reads back as it was written. -/
theorem filesDecode_of_writeFiles (hformat : format.RoundTrips) {files : Content × Content}
    (hlen : ∀ buf, format.toMsgpackBytes node = some buf → buf.length < 2 ^ 32)
    (h : writeFiles format node parentId children = .ok files) :
    FilesDecode format node (some (parentId.getD 0)) children files := by
  rcases writeFiles_eq h with ⟨rfl, hencodes, hfits⟩
  rcases Option.isSome_iff_exists.mp (hencodes node (by simp)) with ⟨buf, hbuf⟩
  have hheader : (encoded format node).length < 2 ^ 32 := by
    rw [encoded_eq format hbuf]
    exact hlen buf hbuf
  constructor
  · have hback := @readsBack_of_load Node format node parentId children hformat _ [] hencodes (by simpa using hfits)
      (@load_whole Node format node parentId hheader (offsetsFrom format 0 children))
    rwa [List.append_nil] at hback
  · intro cut hcut _
    rcases load_cut hheader hcut with herror | ⟨n, -, hload⟩
    · refine .inl ⟨.io, ?_⟩
      rw [MerkleNodeDB.openReadOnly, herror]
      rfl
    · have hsplit : blobs format (children.take n) ++ blobs format (children.drop n) =
          blobs format children := by
        rw [blobs, blobs, ← List.flatMap_append, List.take_append_drop, blobs]
      have hfirst : ∀ item ∈ node :: children.take n, (format.toMsgpackBytes item).isSome := by
        intro item hitem
        apply hencodes item
        rcases List.mem_cons.mp hitem with rfl | hitem
        · exact List.mem_cons_self
        · exact List.mem_cons_of_mem _ (List.mem_of_mem_take hitem)
      rw [take_offsetsFrom] at hload
      have hback := readsBack_of_load hformat hfirst (by rwa [hsplit]) hload
      rw [hsplit] at hback
      exact .inr ⟨n, hback⟩

theorem parentId_of_openReadOnly {nodeBytes childrenBytes : Content}
    (h : MerkleNodeDB.openReadOnly nodeBytes childrenBytes = .ok db) :
    ∃ id, db.parentId = some id := by
  simp only [MerkleNodeDB.openReadOnly, bind_eq_ok] at h
  rcases h with ⟨lookup, -, dtype, -, hdb⟩
  cases hdb
  exact ⟨lookup.parentId, rfl⟩

namespace ChunkExample

/-- A file chunk without data. -/
structure EmptyChunk where
  hash : MerkleHash
deriving DecidableEq

/-- An array of three: an empty array, the text "FileChunk" and sixteen bytes. -/
def chunkStart : Content :=
  [0x93, 0x90, 0xa9, 70, 105, 108, 101, 67, 104, 117, 110, 107, 0xc4, 16]

def chunkFormat : NodeFormat EmptyChunk where
  nodeType := fun _ => .fileChunk
  hash := EmptyChunk.hash
  toMsgpackBytes := fun chunk => some (chunkStart ++ (toLe 16 chunk.hash.toNat).reverse)
  deserialize := fun dtype data =>
    if dtype = .fileChunk ∧ data.take 14 = chunkStart ∧ 30 ≤ data.length then
      some { hash := BitVec.ofNat 128 (ofLe ((data.drop 14).take 16).reverse) }
    else none

theorem chunkFormat_roundTrips : chunkFormat.RoundTrips := by
  rintro ⟨hash⟩ buf h
  cases h
  have hlen : (toLe 16 hash.toNat).reverse.length = 16 := by simp
  have hstart : chunkStart.length = 14 := rfl
  simp only [chunkFormat, true_and]
  rw [if_pos ⟨List.take_left' hstart, by simp [hstart]⟩, List.drop_left' hstart,
    List.take_of_length_le hlen.le, List.reverse_reverse, ofLe_toLe_of_lt hash.isLt,
    BitVec.ofNat_toNat, BitVec.setWidth_eq]

end ChunkExample

theorem filesDecode_of_writeFiles_chunk :
    ∃ files, writeFiles ChunkExample.chunkFormat ⟨5⟩ (some 7) [⟨1⟩, ⟨1⟩] = .ok files ∧
      FilesDecode ChunkExample.chunkFormat ⟨5⟩ (some 7) [⟨1⟩, ⟨1⟩] files := by
  refine ⟨_, rfl, @filesDecode_of_writeFiles _ ChunkExample.chunkFormat ⟨5⟩ (some 7) _
    ChunkExample.chunkFormat_roundTrips _ ?_ rfl⟩
  intro buf h
  cases h
  decide

/-- A node that is written without a parent id is read with the parent id 0. -/
theorem not_filesDecode_none :
    ∃ files, writeFiles ChunkExample.chunkFormat ⟨5⟩ none [] = .ok files ∧
      ¬ FilesDecode ChunkExample.chunkFormat ⟨5⟩ none [] files := by
  refine ⟨_, rfl, ?_⟩
  rintro ⟨⟨db, hopen, -, hparent, -⟩, -⟩
  rcases parentId_of_openReadOnly hopen with ⟨id, hid⟩
  rw [hid] at hparent
  cases hparent

end NodeFiles

end Oxen

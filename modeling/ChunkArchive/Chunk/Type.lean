import ChunkArchive.Text.Basic

/-!
# Types of chunks

A chunk says by a number of 16 bits what it holds. The numbers that have a name are listed here;
those of the script family are the only ones with a meaning for the rest of the library.
-/

set_option autoImplicit false

namespace ChunkArchive.ChunkType

def scriptHashBundle : UInt16 := 0x5011
def scriptData : UInt16 := 0x5012
def scriptHeader : UInt16 := 0x5013
def scriptFunctionTable : UInt16 := 0x5014
def scriptStringHashes : UInt16 := 0x5015

/-- The named types. No number and no name stands here twice. -/
def registry : List (UInt16 × String) := [
  (0x0001, "FileTable"), (0x0010, "Room"), (0x0020, "TextureBundles"), (0x0021, "ModelBundles"),
  (0x0030, "CutsceneNLB"), (0x0031, "Config"), (0x1200, "Video"), (0x1301, "FileHeader"),
  (0x1302, "AnimationBundles"), (0x3000, "AudioBanks"), (0x4000, "Effects"), (0x5000, "Script"),
  (0x5011, "ScriptHashBundle"), (0x5012, "ScriptData"), (0x5013, "ScriptHeader"),
  (0x5014, "ScriptFunctionTable"), (0x5015, "ScriptStringHashes"), (0x6500, "GameObjectDB"),
  (0x6501, "GameObjectDBScriptHashTable"), (0x6502, "GameObjectDBHashScriptIndexTable"),
  (0x6503, "GameObjectDBScriptHash"), (0x6510, "GameObject"), (0x6511, "GameObjectScriptHash"),
  (0x6512, "GameObjectComponentOffsets"), (0x6513, "GameObjectComponentHashes"),
  (0x6514, "GameObjectComponentList"), (0x6515, "GameObjectParentHash"), (0x7000, "AnimationData"),
  (0x7001, "UILayoutHeader"), (0x7002, "UILayoutData"), (0x7003, "UILayout"), (0x7010, "Font"),
  (0x7011, "FontData"), (0x7012, "FontTextures"), (0x7020, "MessageData"), (0x7100, "Skeleton"),
  (0x7101, "SkeletonHeader"), (0x7102, "SkeletonBoneInfo"), (0x7103, "SkeletonBoneTransform"),
  (0x7104, "SkeletonBoneIndexList"), (0x7105, "SkeletonBoneHashList"),
  (0x7106, "SkeletonBoneParenting"), (0x9501, "VAND"), (0xB000, "Model"),
  (0xB001, "ModelTransform"), (0xB002, "ModelInfo"), (0xB003, "MeshInfo"),
  (0xB004, "VertexStartPointers"), (0xB005, "MeshBuffers"), (0xB006, "MaterialData"),
  (0xB007, "MaterialLookupTable"), (0xB008, "BoundingRadius"), (0xB009, "BoundingBox"),
  (0xB00A, "MeshMorphInfos"), (0xB00B, "MeshMorphIndexBuffer"), (0xB00C, "ModelUnknownSection"),
  (0xB100, "SkinControllerStart"), (0xB101, "SkinBindingModelAssign"), (0xB102, "SkinMatrices"),
  (0xB103, "SkinHashes"), (0xB300, "MaterialEffects"), (0xB310, "MaterialParams"),
  (0xB320, "MaterialShaders"), (0xB321, "MaterialRasterizerConfig"),
  (0xB322, "MaterialDepthConfig"), (0xB323, "MaterialBlendConfig"),
  (0xB325, "MaterialShaderHeader"), (0xB326, "MaterialShaderName"),
  (0xB327, "MaterialParameterIndices"), (0xB328, "MaterialParameterOffsets"),
  (0xB329, "MaterialShaderAttrLocations"), (0xB32A, "MaterialShaderAttrLocationOffsets"),
  (0xB32B, "MaterialShaderProgramLocations"), (0xB32D, "MaterialShaderProgramOffsets"),
  (0xB32E, "MaterialShaderUnknown"), (0xB330, "MaterialVariation"),
  (0xB331, "ShaderProgramRenderParams"), (0xB332, "ShaderProgramHeader"),
  (0xB333, "ShaderProgramLocationOffsets"), (0xB334, "ShaderProgramLocIndices"),
  (0xB335, "ShaderProgramLocFlags"), (0xB337, "ShaderProgramHashes"), (0xB400, "ShaderData"),
  (0xB401, "ShaderA"), (0xB402, "ShaderB"), (0xB404, "ShaderConstants"), (0xB500, "Texture"),
  (0xB501, "TextureHeader"), (0xB502, "TextureData"), (0xC100, "CollisionDataStart"),
  (0xC101, "CollisionHeader"), (0xC102, "CollisionSearch"), (0xC103, "CollisionSearchTriIndices"),
  (0xC107, "CollisionStatic"), (0xC110, "CollisionVertexPositions"),
  (0xC111, "CollisionTriIndices"), (0xC112, "CollisionTriNormals"),
  (0xC113, "CollisionTriNormalIndices"), (0xC114, "CollisionMaterialHashes"),
  (0xC115, "CollisionTriMaterialIndices"), (0xC116, "CollisionTriPropertyIndices"),
  (0xC300, "Hitboxes"), (0xC301, "HitboxObjects"), (0xC302, "HitboxObjectParams"),
  (0xC900, "HavokPhysics"), (0xC901, "PhysicData2"), (0xD000, "HitboxRigged"),
  (0xD001, "HitboxRiggedHeader"), (0xD002, "HitboxRiggedData"), (0xE000, "ClothPhysics")]

def name? (id : UInt16) : Option String := (registry.find? fun entry => entry.1 = id).map Prod.snd

/-- Equality but for the case of ASCII letters. -/
def sameName (a b : String) : Bool := a.toList.map Char.toLower == b.toList.map Char.toLower

def ofName? (name : String) : Option UInt16 :=
  (registry.find? fun entry => sameName entry.2 name).map Prod.fst

/-- What a type is called in print. -/
def label (id : UInt16) : String :=
  (name? id).getD ("Unknown (" ++ Numeral.prefixedHex 4 id.toNat ++ ")")

end ChunkArchive.ChunkType

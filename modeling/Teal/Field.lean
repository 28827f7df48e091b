import Teal.Ty

/-!
Fields that programs can read: of transactions, of the ledger as a whole and of assets.
-/

namespace Teal

structure Field where
  name : String
  ty : Ty
  isArray : Bool
  minVersion : Nat
  /-- Whether the field can be set on an inner transaction. -/
  settable : Bool
deriving DecidableEq, Inhabited

namespace Field

def scalar (name : String) (ty : Ty) (minVersion : Nat) : Field := ⟨name, ty, false, minVersion, false⟩

def array (name : String) (ty : Ty) (minVersion : Nat) : Field := ⟨name, ty, true, minVersion, false⟩

def settableScalar (name : String) (ty : Ty) (minVersion : Nat) : Field :=
  ⟨name, ty, false, minVersion, true⟩

inductive Table where
  | txn
  | global
  | assetHolding
  | assetParams
deriving DecidableEq, Inhabited

def txnFields : List Field :=
  [ .settableScalar "Sender" .bytes 1,
    .settableScalar "Fee" .integer 1,
    .scalar "FirstValid" .integer 1,
    .scalar "LastValid" .integer 1,
    .scalar "Note" .bytes 1,
    .scalar "Lease" .bytes 1,
    .settableScalar "Receiver" .bytes 1,
    .settableScalar "Amount" .integer 1,
    .settableScalar "CloseRemainderTo" .bytes 1,
    .scalar "VotePK" .bytes 1,
    .scalar "SelectionPK" .bytes 1,
    .scalar "VoteFirst" .integer 1,
    .scalar "VoteLast" .integer 1,
    .scalar "VoteKeyDilution" .integer 1,
    .settableScalar "Type" .bytes 1,
    .settableScalar "TypeEnum" .integer 1,
    .settableScalar "XferAsset" .integer 1,
    .settableScalar "AssetAmount" .integer 1,
    .settableScalar "AssetSender" .bytes 1,
    .settableScalar "AssetReceiver" .bytes 1,
    .settableScalar "AssetCloseTo" .bytes 1,
    .scalar "GroupIndex" .integer 1,
    .scalar "TxID" .bytes 1,
    .scalar "ApplicationID" .integer 2,
    .scalar "OnCompletion" .integer 2,
    .array "ApplicationArgs" .bytes 2,
    .scalar "NumAppArgs" .integer 2,
    .array "Accounts" .bytes 2,
    .scalar "NumAccounts" .integer 2,
    .scalar "ApprovalProgram" .bytes 2,
    .scalar "ClearStateProgram" .bytes 2,
    .scalar "RekeyTo" .bytes 2,
    .settableScalar "ConfigAsset" .integer 2,
    .settableScalar "ConfigAssetTotal" .integer 2,
    .settableScalar "ConfigAssetDecimals" .integer 2,
    .settableScalar "ConfigAssetDefaultFrozen" .integer 2,
    .settableScalar "ConfigAssetUnitName" .bytes 2,
    .settableScalar "ConfigAssetName" .bytes 2,
    .settableScalar "ConfigAssetURL" .bytes 2,
    .settableScalar "ConfigAssetMetadataHash" .bytes 2,
    .settableScalar "ConfigAssetManager" .bytes 2,
    .settableScalar "ConfigAssetReserve" .bytes 2,
    .settableScalar "ConfigAssetFreeze" .bytes 2,
    .settableScalar "ConfigAssetClawback" .bytes 2,
    .settableScalar "FreezeAsset" .integer 2,
    .settableScalar "FreezeAssetAccount" .bytes 2,
    .settableScalar "FreezeAssetFrozen" .integer 2,
    .array "Assets" .integer 3,
    .scalar "NumAssets" .integer 3,
    .array "Applications" .integer 3,
    .scalar "NumApplications" .integer 3,
    .scalar "GlobalNumUint" .integer 3,
    .scalar "GlobalNumByteSlice" .integer 3,
    .scalar "LocalNumUint" .integer 3,
    .scalar "LocalNumByteSlice" .integer 3,
    .scalar "ExtraProgramPages" .integer 4,
    .scalar "Nonparticipation" .integer 5,
    .array "Logs" .bytes 5,
    .scalar "NumLogs" .integer 5,
    .scalar "CreatedAssetID" .integer 5,
    .scalar "CreatedApplicationID" .integer 5 ]

def globalFields : List Field :=
  [ .scalar "MinTxnFee" .integer 1,
    .scalar "MinBalance" .integer 1,
    .scalar "MaxTxnLife" .integer 1,
    .scalar "ZeroAddress" .bytes 1,
    .scalar "GroupSize" .integer 1,
    .scalar "LogicSigVersion" .integer 2,
    .scalar "Round" .integer 2,
    .scalar "LatestTimestamp" .integer 2,
    .scalar "CurrentApplicationID" .integer 2,
    .scalar "CreatorAddress" .bytes 3,
    .scalar "CurrentApplicationAddress" .bytes 5,
    .scalar "GroupID" .bytes 5 ]

def assetHoldingFields : List Field :=
  [ .scalar "AssetBalance" .integer 2,
    .scalar "AssetFrozen" .integer 2 ]

def assetParamsFields : List Field :=
  [ .scalar "AssetTotal" .integer 2,
    .scalar "AssetDecimals" .integer 2,
    .scalar "AssetDefaultFrozen" .integer 2,
    .scalar "AssetUnitName" .bytes 2,
    .scalar "AssetName" .bytes 2,
    .scalar "AssetURL" .bytes 2,
    .scalar "AssetMetadataHash" .bytes 2,
    .scalar "AssetManager" .bytes 2,
    .scalar "AssetReserve" .bytes 2,
    .scalar "AssetFreeze" .bytes 2,
    .scalar "AssetClawback" .bytes 2,
    .scalar "AssetCreator" .bytes 5 ]

namespace Table

def fields : Table → List Field
  | .txn => txnFields
  | .global => globalFields
  | .assetHolding => assetHoldingFields
  | .assetParams => assetParamsFields

def find? (table : Table) (name : String) : Option Field := table.fields.find? (·.name == name)

end Table

end Field

end Teal

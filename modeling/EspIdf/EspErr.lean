/-! The error codes that the modelled components return. -/

namespace EspIdf

/-- `esp_err_t`: the codes of `esp_err.h` and of the headers of the components that the
modelled functions use. -/
inductive EspErr where
  | ok
  | fail
  | invalidArg
  | invalidState
  | flashOpFail
  | nvsNotInitialized
  | nvsNotFound
  | nvsTypeMismatch
  | nvsNotEnoughSpace
  | nvsRemoveFailed
  | nvsKeyTooLong
  | nvsPageFull
  | nvsInvalidState
  | nvsInvalidLength
  | nvsNoFreePages
  | nvsInvalidHandle
  | nvsReadOnly
  | noMem
  | invalidSize
  | notFound
  | flashOpTimeout
  | otaValidateFailed
  | otaPartitionConflict
  | imageInvalid
  | ulpSizeTooBig
  | ulpInvalidLoadAddr
  | ulpDuplicateLabel
  | ulpUndefinedLabel
  | ulpBranchOutOfRange
  | timeout
  deriving DecidableEq, Repr

end EspIdf

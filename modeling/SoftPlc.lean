import SoftPlc.Vm.CallDepth
import SoftPlc.St.Precedence
import SoftPlc.Compiler.Instances
import SoftPlc.Scan.Delivery
import SoftPlc.Scan.Restart
import SoftPlc.Scan.SafeReset
import SoftPlc.Scan.Modes
import SoftPlc.Scan.Schedule
import SoftPlc.Telemetry.DataTypes
import SoftPlc.Api.Catalog
import SoftPlc.Api.Config
import SoftPlc.Scan.Degrade
import SoftPlc.Scan.Bumpless
import SoftPlc.Scan.Deferral
import SoftPlc.Scan.Ring
import SoftPlc.Scan.Snapshot
import SoftPlc.Telemetry.Payloads
import SoftPlc.St.Lexing
import SoftPlc.Fb.Timers
import SoftPlc.Retain.Remap
import SoftPlc.Scan.TagSlots
import SoftPlc.Ir.AsmFaithful
import SoftPlc.Io.GpioOutputs
import SoftPlc.Io.ModbusWorker
import SoftPlc.Api.MergePatch
import SoftPlc.Retain.Checks
import SoftPlc.Auth.PerAddress
import SoftPlc.St.Source
import SoftPlc.Compiler.Meaning

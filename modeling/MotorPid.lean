import MotorPid.Clocked.Trace
import MotorPid.Clocked.History
import MotorPid.Clocked.Leads
import MotorPid.Clocked.Edges
import MotorPid.Clocked.Window
import MotorPid.Bits.FirstSet
import MotorPid.Clocked.Pwm
import MotorPid.Clocked.TwoPhase
import MotorPid.Quadrature.Walk
import MotorPid.Control.Pid
import MotorPid.Motor.Model
import MotorPid.Motor.Command
import MotorPid.Motor.Refine
import MotorPid.Motor.Duty
import MotorPid.Motor.Position
import MotorPid.Lights.Model
import MotorPid.Lights.Fade
import MotorPid.Lights.Counter
import MotorPid.Lights.Period
import MotorPid.Lights.Smooth
import MotorPid.Lights.Reset
import MotorPid.Controller.Model
import MotorPid.Controller.Run
import MotorPid.Controller.Command
import MotorPid.Controller.Textbook
import MotorPid.Controller.Stall
import MotorPid.Controller.Timing
import MotorPid.Controller.Mirror
import MotorPid.Bus.Crosser
import MotorPid.Bus.Progress
import MotorPid.Bus.Fifo
import MotorPid.Bus.Port
import MotorPid.Bus.Path
import MotorPid.Bus.Router
import MotorPid.Bus.Limiter
import MotorPid.Bus.Arbitrator
import MotorPid.Bus.Mux
import MotorPid.Bus.Traffic
import MotorPid.Hal.BusySleep
import MotorPid.Lights.Program
import MotorPid.Lights.Twinkle
import MotorPid.System.Decode
import MotorPid.System.Effort
import MotorPid.System.Program
import MotorPid.System.ClosedLoop
import MotorPid.System.Safety
import MotorPid.System.Liveness
import MotorPid.System.Shaft
